import Ambient.Walk.Basic

/-!
# Giving every declaration its place

The place of a declaration is its library's root extended by the names of the containers around it
and its own name. Global blocks, imports and exports have no name and add none.
-/

namespace Ambient

/-- The place of a node inside `p`. -/
def placeWithin (lib : Ident) (p : CodePath) : Node → CodePath
  | .file _ => CodePath.root lib
  | .decl d => (d.name?.map p.add).getD p
  | _ => p

/-- The place of a declaration or file, if it is not the one that it has. -/
def newPlace? (p : CodePath) (current : Option CodePath) : Option CodePath :=
  match current with
  | some q => if q = p then none else some p
  | none => none

def placeHooks (lib : Ident) : Hooks Id CodePath :=
  { Hooks.idle (placeWithin lib) with
    enterFile := fun p f => newPlace? p (some f.codePath)
    enterDecl := fun p d => newPlace? p d.codePath? }

/-- Puts every declaration of the library in its place. -/
def setCodePaths (lib : Ident) (f : File) : Edited File :=
  Id.run (walkFile (placeHooks lib) .noPath f)

end Ambient
