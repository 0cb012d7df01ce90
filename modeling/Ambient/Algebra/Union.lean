import Ambient.Distinct
import Ambient.Tree.Build
import Ambient.Tree.Equal

/-!
# Unions

A union in simplest form is flat, has no two equal members and at least two of them: a union of one
type is that type, and the empty union is `never`. An optional type is a union with `undefined`.
-/

namespace Ambient

mutual

/-- The members of a type seen as a union, nested unions opened; any other type is its own and only
member. -/
def Ty.unionLeaves : Ty → List Ty
  | .union _ ts => Ty.unionLeavesList ts
  | t => [t]

def Ty.unionLeavesList : List Ty → List Ty
  | [] => []
  | t :: ts => t.unionLeaves ++ Ty.unionLeavesList ts

end

/-- The union of types that are distinct and no unions themselves. -/
def Ty.joinDistinct : List Ty → Ty
  | [] => .never
  | [t] => t
  | ts => .ofUnion ts

/-- The union of `ts` in simplest form. Of equal members the first is kept. -/
def simplifyUnion (ts : List Ty) : Ty :=
  Ty.joinDistinct (distinct (Ty.unionLeavesList ts))

/-- `t | undefined` in simplest form. -/
def makeOptional (t : Ty) : Ty :=
  simplifyUnion [t, .undefined]

/-- What an optional type is besides `undefined`; `undefined` alone is its own rest. A type without
`undefined` has none. -/
def extractOptional? (t : Ty) : Option Ty :=
  match t with
  | .union _ ts =>
    if ts.any Ty.isUndefined then some (simplifyUnion (ts.filter fun u => !u.isUndefined)) else none
  | t => if t.isUndefined then some t else none

end Ambient
