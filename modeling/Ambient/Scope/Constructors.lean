import Ambient.Pass.Substitute
import Ambient.Scope.Question
import Ambient.Tree.Build

/-!
# The constructors of a class

A class without constructors has those of its nearest ancestor that has some, with the ancestor's
type parameters replaced by the arguments given in `extends`.
-/

namespace Ambient

/-- The types that stand for a class's type parameters in a reference with the arguments `targs`: a
missing argument is the parameter's default, or else `any`. -/
def argumentsFor (ps : List TypeParam) (targs : List Ty) : List (Ty × Ty) :=
  match ps, targs with
  | [], _ => []
  | p :: ps, [] => (p.asTy, p.default.getD .any) :: argumentsFor ps []
  | p :: ps, t :: ts => (p.asTy, t) :: argumentsFor ps ts

/-- The substitution that a reference with the arguments `targs` makes in a class. -/
def instantiation (ps : List TypeParam) (targs : List Ty) : Substitution :=
  Substitution.ofPairs ((argumentsFor ps targs).filter fun (x, t) => !(x == t))

/-- A constructor with types replaced in its signature. -/
def Member.instantiate (sub : Substitution) : Member → Member
  | .function m => .function { m with sig := (sub.inSignature m.sig).value }
  | m => m

/-- The constructors of a class as a reference with the arguments `targs` provides them. -/
def instantiateCtors (c : ClassDecl) (targs : List Ty) (ctors : List Member) : List Member :=
  let sub := instantiation c.tparams targs
  if sub.isEmpty then ctors else ctors.map (Member.instantiate sub)

/-- The constructors that a reference to a declaration with the arguments `targs` provides. -/
def ctorsOfFound (targs : List Ty) (f : Found) : Search (List Member) :=
  match f.decl with
  | .cls c => return instantiateCtors c targs (← Search.about (.ctorsOf f c))
  | _ => return []

/-- The constructors that a reference to the class `q` with the arguments `targs` provides. -/
def ctorsSearch (s : Scope) (q : QIdent) (targs : List Ty) : Search (List Member) := do
  firstNonempty (ctorsOfFound targs) (← Search.about (.name .classes s q))

/-- The constructors of a class: its own, or else those that it inherits. -/
def classCtorsSearch (s : Scope) (c : ClassDecl) : Search (List Member) :=
  let own := c.members.filter Member.isClassCtor
  if !own.isEmpty then return own
  else
    match c.parent with
    | some (.ref _ q ts) => Search.about (.ctors s q ts)
    | _ => return []

end Ambient
