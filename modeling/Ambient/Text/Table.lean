/-!
# Tables of character properties

A property of characters is a list of code point ranges, and a case mapping a list of shifts
together with the few characters that these do not cover.
-/

namespace Ambient.Text

/-- Ranges of code points in ascending order, each by two lengths: that of the gap before it and its own. -/
abbrev Ranges := List Nat

/-- Is the code point `n` in one of the ranges, of which the first gap starts at 0? -/
def Ranges.has : Ranges → Nat → Bool
  | gap :: length :: rs, n => gap ≤ n && (n < gap + length || Ranges.has rs (n - (gap + length)))
  | _, _ => false

/-- Every `stride`-th code point from `first` to `last` moves by `delta`. -/
structure Shift where
  first : Nat
  last : Nat
  stride : Nat
  delta : Int

def Shift.moves (s : Shift) (n : Nat) : Bool :=
  s.first ≤ n && n ≤ s.last && (n - s.first) % s.stride == 0

/-- The shift back. -/
def Shift.inverse (s : Shift) : Shift :=
  ⟨(s.first + s.delta).toNat, (s.last + s.delta).toNat, s.stride, -s.delta⟩

/-- The image of `c` under the shifts and expansions; a character in neither is its own image. -/
def mapCase (shifts : List Shift) (expansions : List (Nat × List Nat)) (c : Char) : List Char :=
  match expansions.lookup c.toNat with
  | some cs => cs.map Char.ofNat
  | none =>
    match shifts.find? (·.moves c.toNat) with
    | some s => [Char.ofNat (c.toNat + s.delta).toNat]
    | none => [c]

end Ambient.Text
