import Ambient.Algebra.Intersection
import Ambient.Walk.Basic

/-!
# Simplifying unions and intersections everywhere

Every union and intersection in a file is brought to simplest form, innermost first. One that is in
simplest form already stays the node it is.
-/

namespace Ambient

/-- The type in simplest form, if it is a union or intersection that is not. -/
def simplified? (t : Ty) : Option Ty :=
  let keepEqual (u : Ty) : Option Ty := if u == t then none else some u
  match t with
  | .union _ ts => keepEqual (simplifyUnion ts)
  | .intersect _ ts => keepEqual (simplifyIntersection ts)
  | _ => none

def simplifyHooks : Hooks Id Unit :=
  { Hooks.idle fun _ _ => () with leaveTy := fun _ t => simplified? t }

/-- Simplifies every union and intersection of a file. -/
def simplifyTypes (f : File) : Edited File :=
  Id.run (walkFile simplifyHooks () f)

end Ambient
