import Ambient.CodePath

/-!
# What can go wrong

A `Violation` is an edit of the tree that would break one of its invariants, and so is refused. A
`Failure` is what stops a computation on trees: a violation, or a search that outran the bound
computed for it.
-/

namespace Ambient

/-- A refused edit. -/
inductive Violation where
  /-- A call target stands for its owner, so it cannot take another name. -/
  | renameCallTarget (newName : Ident) (codePath : CodePath)
  /-- Imports find a module by its name, so that name is fixed. -/
  | renameModule (name : Ident)
  /-- There is no name to replace. -/
  | unnamed
  /-- A declaration cannot move to a place that is not known. -/
  | relocateWithoutCodePath (name : Ident)
  deriving DecidableEq, Repr

def Violation.message : Violation → String
  | .renameCallTarget newName codePath =>
    "cannot rename the implicit call target of " ++ codePath.text ++ " to `" ++ newName ++ "`"
  | .renameModule name =>
    "cannot rename module `" ++ name ++ "`: module names are resolution keys"
  | .unnamed => "cannot rename a declaration without a name"
  | .relocateWithoutCodePath name =>
    "cannot relocate `" ++ name ++ "`: it has no code path"

/-- What stops a computation on trees. -/
inductive Failure where
  | violation (v : Violation)
  /-- A search outran its bound. -/
  | exhausted
  deriving DecidableEq, Repr

def Failure.message : Failure → String
  | .violation v => v.message
  | .exhausted => "the search outran its bound"

/-- The place of `name` inside `p`, refused when `p` is not known. -/
def CodePath.relocate (p : CodePath) (name : Ident) : Except Violation CodePath :=
  if p.isSet then .ok (p.add name) else .error (.relocateWithoutCodePath name)

end Ambient
