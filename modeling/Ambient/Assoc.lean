/-!
# Ordered maps

A map as a list of keys and values in the order in which the keys first came.
-/

namespace Ambient

/-- Puts a value under a key: a key that is there keeps its place and gets the value. -/
def put {κ α : Type} [BEq κ] (k : κ) (a : α) : List (κ × α) → List (κ × α)
  | [] => [(k, a)]
  | (k', a') :: rest => if k' == k then (k', a) :: rest else (k', a') :: put k a rest

/-- The map of a list of pairs, of which later ones win. -/
def putAll {κ α : Type} [BEq κ] (pairs : List (κ × α)) : List (κ × α) :=
  pairs.foldl (fun done (k, a) => put k a done) []

end Ambient
