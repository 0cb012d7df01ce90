import Ambient.Assoc
import Ambient.Tree.Equal
import Ambient.Tree.Node
import Ambient.Walk.Basic

/-!
# Replacing types

A substitution replaces types by types, found by equality. It works on the way up, so a type is
compared after the types in it are replaced, and what is put in is not replaced again. Under a node
with a type parameter `T`, a reference to the simple name `T` means the parameter and is left alone.
-/

namespace Ambient

/-- What is to be replaced, and by what; no two of the replaced types are equal. -/
abbrev Substitution := List (Ty × Ty)

/-- The substitution of a list of pairs, of which later ones win. -/
def Substitution.ofPairs (pairs : List (Ty × Ty)) : Substitution :=
  putAll pairs

/-- Is `t` a reference to one of the type parameters? -/
def bindsReference (ps : List TypeParam) (t : Ty) : Bool :=
  match t with
  | .ref _ [x] [] => ps.any fun p => p.name == x
  | _ => false

/-- The part of the substitution that is in force under the node. -/
def Substitution.under (sub : Substitution) (n : Node) : Substitution :=
  sub.filter fun (t, _) => !bindsReference n.tparams t

/-- The type in the place of `t`, unless that is the very node `t`. -/
def Substitution.replacement? (sub : Substitution) (t : Ty) : Option Ty :=
  match (sub.find? fun (k, _) => k == t), t with
  | some (_, .this), .this => none
  | some (_, u), _ => some u
  | none, _ => none

def substituteHooks : Hooks Id Substitution :=
  { Hooks.idle Substitution.under with leaveTy := fun sub t => sub.replacement? t }

namespace Substitution

def inTy (sub : Substitution) (t : Ty) : Edited Ty :=
  Id.run (walkTy substituteHooks sub t)

def inSignature (sub : Substitution) (s : Signature) : Edited Signature :=
  Id.run (walkSig substituteHooks sub s)

def inFile (sub : Substitution) (f : File) : Edited File :=
  if sub.isEmpty then .keep f else Id.run (walkFile substituteHooks sub f)

end Substitution

end Ambient
