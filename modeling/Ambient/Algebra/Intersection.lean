import Ambient.Algebra.Union

/-!
# Intersections

An intersection in simplest form is flat, has no two equal members, at least two of them, and at
most one object type whose members are all written out. Several such objects are merged into one,
which stands where the first of them stood. The empty intersection is `unknown`.

A mapped type generates its members from a set of keys, so an object with such a rule is never
merged.
-/

namespace Ambient

mutual

/-- The members of a type seen as an intersection, nested intersections opened. -/
def Ty.intersectLeaves : Ty → List Ty
  | .intersect _ ts => Ty.intersectLeavesList ts
  | t => [t]

def Ty.intersectLeavesList : List Ty → List Ty
  | [] => []
  | t :: ts => t.intersectLeaves ++ Ty.intersectLeavesList ts

end

/-- An object type whose members are written out, with its comments. -/
def Ty.plainObject? : Ty → Option (Comments × List Member)
  | .object info ms => if Member.isTypeMapping ms then none else some (info.comments, ms)
  | _ => none

def Ty.isPlainObject (t : Ty) : Bool :=
  t.plainObject?.isSome

/-- Does an entry from another object than `origin` have the name `x`? -/
def overriddenBy (origin : Nat) (x : Ident) (entry : Nat × Member) : Bool :=
  entry.1 != origin && entry.2.name? == some x

/-- Adds the member `m` of the object number `origin` to the members merged so far. A name that an
earlier object declared is overridden: `m` takes the first place of that name, and the other places
are given up. -/
def mergeMember (origin : Nat) (merged : List (Nat × Member)) (m : Member) : List (Nat × Member) :=
  match m.name? with
  | none => merged ++ [(origin, m)]
  | some x =>
    match merged.findIdx? (overriddenBy origin x) with
    | none => merged ++ [(origin, m)]
    | some i =>
      merged.take i ++ (origin, m) ::
        (merged.drop (i + 1)).filter fun entry => !overriddenBy origin x entry

/-- The members of several objects as those of one, each with the number of its object. The objects
are numbered from `origin` on. -/
def mergeObjects (origin : Nat) (merged : List (Nat × Member)) :
    List (Comments × List Member) → List (Nat × Member)
  | [] => merged
  | (_, ms) :: rest => mergeObjects (origin + 1) (ms.foldl (mergeMember origin) merged) rest

def mergedObject (objects : List (Comments × List Member)) : Ty :=
  .object { comments := (objects.map (·.1)).flatten }
    ((mergeObjects 0 [] objects).map (·.2))

/-- The types with `merged` in the place of the first written-out object and without the others. -/
def replaceObjects (merged : Ty) : List Ty → List Ty
  | [] => []
  | t :: ts =>
    if t.isPlainObject then merged :: ts.filter fun u => !u.isPlainObject
    else t :: replaceObjects merged ts

/-- The types with their written-out objects merged into one. -/
def mergePlainObjects (ts : List Ty) : List Ty :=
  match ts.filterMap Ty.plainObject? with
  | [] | [_] => ts
  | objects => replaceObjects (mergedObject objects) ts

/-- The intersection of types that are distinct and no intersections themselves. -/
def Ty.meetDistinct : List Ty → Ty
  | [] => .unknown
  | [t] => t
  | ts => .ofIntersect ts

/-- The intersection of `ts` in simplest form. -/
def simplifyIntersection (ts : List Ty) : Ty :=
  Ty.meetDistinct (mergePlainObjects (distinct (Ty.intersectLeavesList ts)))

end Ambient
