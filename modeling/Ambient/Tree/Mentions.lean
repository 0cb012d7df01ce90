import Ambient.Tree.Basic

/-!
# The types in a type

`Ty.parts` lists a type and all types inside it, outermost first; initialisers are not looked into.
The names that a type mentions are those of the references among its parts.
-/

namespace Ambient

mutual

/-- The type and every type inside it, outermost first. -/
def Ty.parts : Ty → List Ty
  | t@(.ref _ _ ts) => t :: Ty.partsList ts
  | t@(.object _ ms) => t :: Member.partsList ms
  | t@(.function s) => t :: s.parts
  | t@(.constructor _ _ s) => t :: s.parts
  | t@(.tuple _ es) => t :: TupleElem.partsList es
  | t@(.repeated _ u) => t :: u.parts
  | t@(.keyOf _ u) => t :: u.parts
  | t@(.lookup _ u k) => t :: (u.parts ++ k.parts)
  | t@(.union _ ts) => t :: Ty.partsList ts
  | t@(.intersect _ ts) => t :: Ty.partsList ts
  | t@(.conditional _ p u e) => t :: (p.parts ++ u.parts ++ e.parts)
  | t@(.extending _ u b) => t :: (u.parts ++ b.parts)
  | t@(.infer p) => t :: p.parts
  | t@(.is _ _ u) => t :: u.parts
  | t@(.literal _ _) => [t]
  | t@(.query _ _) => [t]
  | .this => [.this]

def Ty.partsList : List Ty → List Ty
  | [] => []
  | t :: ts => t.parts ++ Ty.partsList ts

def Ty.partsOption : Option Ty → List Ty
  | none => []
  | some t => t.parts

def TupleElem.partsList : List TupleElem → List Ty
  | [] => []
  | ⟨_, t⟩ :: es => t.parts ++ TupleElem.partsList es

/-- The types in the bound and the default of a type parameter. -/
def TypeParam.parts : TypeParam → List Ty
  | ⟨_, _, b, d⟩ => Ty.partsOption b ++ Ty.partsOption d

def TypeParam.partsList : List TypeParam → List Ty
  | [] => []
  | p :: ps => p.parts ++ TypeParam.partsList ps

def Param.partsList : List Param → List Ty
  | [] => []
  | ⟨_, _, t⟩ :: ps => Ty.partsOption t ++ Param.partsList ps

/-- The types in a signature: type parameters, parameters, result. -/
def Signature.parts : Signature → List Ty
  | ⟨_, ps, xs, r⟩ => TypeParam.partsList ps ++ Param.partsList xs ++ Ty.partsOption r

/-- The types in a member. -/
def Member.parts : Member → List Ty
  | .call ⟨_, _, s⟩ => s.parts
  | .ctor ⟨_, _, s⟩ => s.parts
  | .function ⟨_, _, _, _, s, _, _⟩ => s.parts
  | .property ⟨_, _, _, t, _, _, _⟩ => Ty.partsOption t
  | .index ⟨_, _, _, .dict _ k, v⟩ => k.parts ++ Ty.partsOption v
  | .index ⟨_, _, _, .single _, v⟩ => Ty.partsOption v
  | .mapped ⟨_, _, _, _, s, a, _, t⟩ => s.parts ++ Ty.partsOption a ++ t.parts

def Member.partsList : List Member → List Ty
  | [] => []
  | m :: ms => m.parts ++ Member.partsList ms

end

def Ty.refName? : Ty → Option QIdent
  | .ref _ name _ => some name
  | _ => none

/-- The names of the references in a type, outermost first. -/
def Ty.mentions (t : Ty) : List QIdent :=
  t.parts.filterMap Ty.refName?

end Ambient
