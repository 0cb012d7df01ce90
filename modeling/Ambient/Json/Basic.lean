import Ambient.Assoc

/-!
# JSON values

The value of a JSON text. Numbers are kept as they were written. A string whose escapes pair no
surrogates stands for no text at all: such a string, and an object with such a key, is `illFormed`.
-/

namespace Ambient

/-- A JSON value. The fields of an object are in the order of the text, repetitions included. -/
inductive Json where
  | null
  | bool (b : Bool)
  | num (text : String)
  | str (s : String)
  | arr (items : List Json)
  | obj (fields : List (String × Json))
  | illFormed

namespace Json

instance : Inhabited Json := ⟨.null⟩

mutual

/-- How deep the value nests. -/
def depth : Json → Nat
  | .arr items => depthItems items + 1
  | .obj fields => depthFields fields + 1
  | _ => 0

def depthItems : List Json → Nat
  | [] => 0
  | j :: js => max j.depth (depthItems js)

def depthFields : List (String × Json) → Nat
  | [] => 0
  | (_, j) :: fs => max j.depth (depthFields fs)

end

mutual

/-- Does every string in the value stand for a text? -/
def isWellFormed : Json → Bool
  | .arr items => areWellFormed items
  | .obj fields => fieldsWellFormed fields
  | .illFormed => false
  | _ => true

def areWellFormed : List Json → Bool
  | [] => true
  | j :: js => j.isWellFormed && areWellFormed js

def fieldsWellFormed : List (String × Json) → Bool
  | [] => true
  | (_, j) :: fs => j.isWellFormed && fieldsWellFormed fs

end

mutual

/-- The value with one field per name in every object, the last of each name. -/
def merged : Json → Json
  | .arr items => .arr (mergedItems items)
  | .obj fields => .obj (mergedFields [] fields)
  | j => j

def mergedItems : List Json → List Json
  | [] => []
  | j :: js => j.merged :: mergedItems js

/-- The fields, each merged, put one by one into those that are there. -/
def mergedFields (done : List (String × Json)) : List (String × Json) → List (String × Json)
  | [] => done
  | (k, j) :: fs => mergedFields (put k j.merged done) fs

end

/-- The field `k` of an object; `null` when there is none or the value is no object. -/
def field (j : Json) (k : String) : Json :=
  match j with
  | .obj fields => (fields.lookup k).getD .null
  | _ => .null

end Json

end Ambient
