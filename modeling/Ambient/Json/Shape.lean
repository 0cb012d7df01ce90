import Ambient.Json.Basic

/-!
# Values of a fixed shape

How the parts of a tree are written as JSON, and the readers that undo it.

* A record is an object with one field per part. It is also read from an array of all parts in
  order. A missing field reads as `null`.
* An alternative with content is an object with one field, its tag; one without content is its tag
  as a string, also read from an object with the value `null`.
* A part that may be missing is the part or `null`.
-/

namespace Ambient.Json

/-! ## Writing -/

def ofOption {α : Type} (f : α → Json) : Option α → Json
  | none => .null
  | some a => f a

def ofList {α : Type} (f : α → Json) (xs : List α) : Json :=
  .arr (xs.map f)

def tagged (tag : String) (content : Json) : Json :=
  .obj [(tag, content)]

/-! ## Reading -/

def bool? : Json → Option Bool
  | .bool b => some b
  | _ => none

def str? : Json → Option String
  | .str s => some s
  | _ => none

def items? : Json → Option (List Json)
  | .arr items => some items
  | _ => none

def option? {α : Type} (f : Json → Option α) : Json → Option (Option α)
  | .null => some none
  | j => (f j).map some

def list? {α : Type} (f : Json → Option α) (j : Json) : Option (List α) := do
  (← j.items?).mapM f

def pair? {α β : Type} (f : Json → Option α) (g : Json → Option β) : Json → Option (α × β)
  | .arr [a, b] => do return (← f a, ← g b)
  | _ => none

/-- The parts of a record, in the order of `names`. -/
def record? (names : List String) : Json → Option (List Json)
  | .obj fields => some (names.map fun k => (fields.lookup k).getD .null)
  | .arr items => if items.length = names.length then some items else none
  | _ => none

/-- The tag of an alternative, and its content if it has one. -/
def variant? : Json → Option (String × Option Json)
  | .str tag => some (tag, none)
  | .obj [(tag, content)] => some (tag, some content)
  | _ => none

/-- Reads an alternative without content. -/
def unit? {α : Type} (tags : List (String × α)) (j : Json) : Option α :=
  match j.variant? with
  | some (tag, none) | some (tag, some .null) => tags.lookup tag
  | _ => none

end Ambient.Json
