import Ambient.Distinct
import Ambient.Scope.Question

/-!
# The keys of a mapped type

`[K in S]` ranges over the keys that `S` stands for. A key source is evaluated to a finite list of
names where that is possible: literals, unions, `keyof` of a type whose members are all known, and
aliases of such types.
-/

namespace Ambient

/-- The names of members as keys, each once; none if the members are open-ended. Static members and
constructors do not belong to an instance. -/
def keysOfMembers (ms : List Member) : Option (List Ident) :=
  if ms.any fun m => m.isDict || m.isMapped then none
  else some (distinct ((ms.filter fun m => !m.isStatic && !m.isClassCtor).filterMap Member.name?))

/-- The keys of the target of a `keyof`. -/
def keysOfTarget (s : Scope) (t : Ty) : Search (Option (List Ident)) :=
  match t with
  | .object _ ms => return if Member.isTypeMapping ms then none else keysOfMembers ms
  | .ref _ x _ => do
    if s.isAbstract x then return none
    return (← Search.about (.members s x)).bind keysOfMembers
  | _ => return none

/-- The keys of a declaration that is an alias without type parameters. -/
def keysOfAlias (f : Found) : Search (Option (List Ident)) :=
  match f.decl with
  | .typeAlias a => if a.tparams.isEmpty then Search.about (.aliasKeys f a.target) else return none
  | _ => return none

/-- The keys of the first of the declarations that has keys. -/
def keysOfAliases : List Found → Search (Option (List Ident))
  | [] => return none
  | f :: fs => do
    match ← keysOfAlias f with
    | some ks => return some ks
    | none => keysOfAliases fs

/-- The keys of the members of a union, one list after the other, if each member has keys. -/
def keysOfUnion (s : Scope) : List Ty → Search (Option (List Ident))
  | [] => return some []
  | t :: ts => do
    match ← Search.about (.keys s t) with
    | none => return none
    | some ks =>
      match ← keysOfUnion s ts with
      | none => return none
      | some ls => return some (ks ++ ls)

/-- The keys that a type stands for in `s`. -/
def keysSearch (s : Scope) (t : Ty) : Search (Option (List Ident)) :=
  match t with
  | .literal _ v => return v.key?.map fun k => [k]
  | .union _ ts => return (← keysOfUnion s ts).map distinct
  | .keyOf _ u => keysOfTarget s u
  | .ref _ x [] => do
    if s.isAbstract x then return none
    keysOfAliases (← Search.about (.name .types s x))
  | _ => return none

end Ambient
