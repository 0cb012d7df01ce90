import Ambient.Distinct
import Ambient.Text.Numeric
import Ambient.Tree.Node

/-!
# Names for anonymous types

An anonymous type is named after its members. The names tried are a stem followed by one, two and
more fragments of its members' names, and then the longest of these followed by 1, 2, 3 and so on.
-/

namespace Ambient

/-- May the character stand in a fragment of a name? -/
def isNameChar (c : Char) : Bool :=
  Text.isAlphanumeric c || c == '_' || c == '$'

/-- What a member contributes to the name of its type, before characters are dropped. -/
def Member.fragment? : Member → Option String
  | .call _ => some "Call"
  | .ctor _ => some "Instantiable"
  | .function m =>
    some (if m.name = Ident.constructor then "Instantiable" else Ident.capitalized m.name)
  | .property p => some (Ident.capitalized p.name)
  | .index { indexing := .dict _ _, .. } => some "Dictionary"
  | .index { indexing := .single q, .. } => q.getLast?.map Ident.capitalized
  | .mapped _ => some "Mapped"

/-- What members contribute to the name of their type: fragments that are not empty, each once. -/
def fragments (ms : List Member) : List String :=
  let texts := (ms.filterMap Member.fragment?).map fun s =>
    String.ofList (s.toList.filter isNameChar)
  distinct (texts.filter fun s => !s.isEmpty)

/-- The text followed by the first fragment, the first two, and so on. -/
def grow (text : String) : List String → List String
  | [] => []
  | f :: fs => (text ++ f) :: grow (text ++ f) fs

/-- The names to try before numbers are added: the stem alone only if there are no fragments. -/
def candidates (stem : String) (ms : List Member) : List Ident :=
  match fragments ms with
  | [] => if stem.isEmpty then [] else [stem]
  | fs => grow stem fs

section

variable {m : Type → Type} [Monad m] (isFree : Ident → m Bool)

def firstFree : List Ident → m (Option Ident)
  | [] => return none
  | x :: xs => do
    if ← isFree x then return some x else firstFree xs

/-- The first free name among the stem followed by a number, of `limit` numbers from `first` on. -/
def firstFreeNumbered (stem : String) (first : Nat) : Nat → m (Option Ident)
  | 0 => return none
  | limit + 1 => do
    let x := stem ++ toString first
    if ← isFree x then return some x else firstFreeNumbered stem (first + 1) limit

/-- The first free name for a type with the members `ms`. At most `limit` numbers are tried. -/
def deriveName (limit : Nat) (stem : String) (ms : List Member) : m (Option Ident) := do
  let names := candidates stem ms
  match ← firstFree isFree names with
  | some x => return some x
  | none => firstFreeNumbered isFree (names.getLast?.getD stem) 1 limit

end

end Ambient
