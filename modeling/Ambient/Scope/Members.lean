import Ambient.Scope.Question

/-!
# The members of a named type

A reference to an interface, a class or an alias of an object type has members: its own, followed
by those it inherits and does not override. Type arguments are not put into inherited members.
-/

namespace Ambient

/-- The members with an inherited one added, unless a member of its name is there. -/
def inheritMember (own : List Member) (m : Member) : List Member :=
  match m.name? with
  | none => own ++ [m]
  | some x => if own.any fun o => o.name? == some x then own else own ++ [m]

/-- The members that several declarations of one name have together. -/
def joinContributions (cs : List Contribution) : Option (List Member) :=
  if cs.any (·.resolved) then
    some ((cs.flatMap (·.inherited)).foldl inheritMember (cs.flatMap (·.own)))
  else none

/-- The members that a class or interface inherits from `t`, as seen from `s`. -/
def membersOfParent (s : Scope) (t : Ty) : Search (List Member) :=
  match t with
  | .ref _ x _ => return (← Search.about (.members s x)).getD []
  | .object _ ms => return ms
  | _ => return []

mutual

/-- The members of the type that an alias stands for: an object with its members written out, a
named type, or an intersection of such types. -/
def membersOfAlias (s : Scope) : Ty → Search (Option (List Member))
  | .object _ ms => return if Member.isTypeMapping ms then none else some ms
  | .ref _ x _ => Search.about (.members s x)
  | .intersect _ ts => membersOfAliases s ts
  | _ => return none

/-- The members of several types together, if each has members. -/
def membersOfAliases (s : Scope) : List Ty → Search (Option (List Member))
  | [] => return some []
  | t :: ts => do
    match ← membersOfAlias s t with
    | none => return none
    | some ms =>
      match ← membersOfAliases s ts with
      | none => return none
      | some ns => return some (ms ++ ns)

end

/-- What a declaration contributes to the members of its name, as seen from inside it. -/
def contributionOf (s : Scope) : Decl → Search Contribution
  | .iface i => return ⟨true, i.members, ← concatMapM (membersOfParent s) i.inheritance⟩
  | .cls c =>
    return ⟨true, c.members, ← concatMapM (membersOfParent s) (c.parent.toList ++ c.implements)⟩
  | .typeAlias a => do
    match ← membersOfAlias s a.target with
    | some ms => return ⟨true, ms, []⟩
    | none => return ⟨false, [], []⟩
  | _ => return ⟨false, [], []⟩

/-- The members of the type named `q` in `s`. -/
def membersSearch (s : Scope) (q : QIdent) : Search (Option (List Member)) := do
  if QIdent.isPrimitive q || s.isAbstract q then return none
  let found ← Search.about (.name .types s q)
  return joinContributions (← concatMapM (fun f => Search.about (.contribution f)) found)

/-- What a declaration that was found contributes to the members of its name. -/
def contributionSearch (f : Found) : Search (List Contribution) :=
  return [← contributionOf f.inner f.decl]

end Ambient
