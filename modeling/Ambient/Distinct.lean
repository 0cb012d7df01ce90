/-!
# Lists without repetition

`distinct` keeps the first element of each group of equal ones and the order of those it keeps.
-/

namespace Ambient

/-- The first element of each group of equal ones, in order. -/
def distinct {α : Type} [BEq α] : List α → List α
  | [] => []
  | x :: xs => x :: (distinct xs).filter fun y => !(x == y)

end Ambient
