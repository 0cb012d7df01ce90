import Ambient.Scope.Answer
import Ambient.Walk.Basic

/-!
# Inherited constructors

A class without constructors inherits those of its nearest ancestor that has some. They are written
out on it.
-/

namespace Ambient

/-- The class with the constructors that it inherits, if it has none and inherits some. -/
def forwardTo (s : Scope) (d : Decl) : Resolve (Option Decl) := do
  match d with
  | .cls c =>
    if c.members.any Member.isClassCtor then return none
    match c.parent with
    | some (.ref _ q targs) =>
      match ← Resolve.afresh (s.ctorsOf q targs []) with
      | [] => return none
      | ctors => return some (.cls { c with members := ctors ++ c.members })
    | _ => return none
  | _ => return none

def constructorHooks : Hooks Resolve Scope :=
  { Hooks.idle Scope.enter with leaveDecl := forwardTo }

/-- Writes out the inherited constructors of a file's classes. -/
def forwardCtors (root : Scope) (f : File) : Resolve (Edited File) :=
  walkFile constructorHooks root f

end Ambient
