/-!
# Edited values

The result of working on a part of a tree: the new part, and whether it is another node than the one
that was given. A part that is not `changed` is the given one.
-/

namespace Ambient

/-- A part of a tree after work on it. -/
structure Edited (α : Type) where
  value : α
  /-- Is the value another node than the one that was given? -/
  changed : Bool

namespace Edited

/-- The part as it was given. -/
def keep {α : Type} (a : α) : Edited α := ⟨a, false⟩

/-- A part that takes the place of the given one. -/
def new {α : Type} (a : α) : Edited α := ⟨a, true⟩

/-- A node around one part is another node when the part is. -/
def map {α β : Type} (f : α → β) (e : Edited α) : Edited β :=
  ⟨f e.value, e.changed⟩

/-- A node around several parts is another node when one of them is. -/
def ap {α β : Type} (f : Edited (α → β)) (e : Edited α) : Edited β :=
  ⟨f.value e.value, f.changed || e.changed⟩

instance : Functor Edited where
  map := map

instance : Applicative Edited where
  pure := keep
  seq f e := ap f (e ())

/-- The part after a replacement, if there is one. -/
def replace {α : Type} (e : Edited α) : Option α → Edited α
  | none => e
  | some a => new a

/-- The part after a further step, which answers `none` to keep it. -/
def thenStep {α : Type} {m : Type → Type} [Monad m] (e : Edited α) (step : α → m (Option α)) :
    m (Edited α) :=
  return e.replace (← step e.value)

/-- The new part, or `none` if the given one was kept. -/
def toOption {α : Type} (e : Edited α) : Option α :=
  if e.changed then some e.value else none

end Edited

end Ambient
