import Ambient.Scope.Answer
import Ambient.Walk.Basic

/-!
# Members of an exported variable

`export = x` makes the members of the variable `x` the members of the module. They are declared next
to `x`, unless the container declares their name already.
-/

namespace Ambient

/-- The simple names that are exported by `export = x`. -/
def exportEqualsTargets (ds : List Decl) : List Ident :=
  ds.filterMap fun
    | .exports h (.names [([x], none)] none) => if h.kind = .namespaced then some x else none
    | _ => none

/-- The place of `name` in the container, or the violation as a failure. -/
def relocated (container : CodePath) (name : Ident) : Except Failure CodePath :=
  (container.relocate name).mapError .violation

/-- The declaration next to the variable `v` that a member of its type becomes. -/
def hoistMember (v : VarDecl) (container : CodePath) : Member → Except Failure (Option Decl)
  | .call c => do
    let place ← relocated container Ident.apply
    return some (.function ⟨{ comments := c.info.comments }, true, Ident.apply, c.sig,
      v.jsLocation.add Ident.apply, place⟩)
  | .function m => do
    if m.kind ≠ .normal ∨ m.isStatic ∨ m.name = Ident.constructor then return none
    let place ← relocated container m.name
    return some (.function ⟨{ comments := m.info.comments }, true, m.name, m.sig,
      v.jsLocation.add m.name, place⟩)
  | .property p => do
    if p.isStatic then return none
    let place ← relocated container p.name
    return some (.var ⟨{ comments := p.info.comments }, true, p.isReadonly, p.name, p.tpe, none,
      v.jsLocation.add p.name, place⟩)
  | .ctor _ | .index _ | .mapped _ => return none

def hoistMembers (v : VarDecl) (container : CodePath) : List Member → Except Failure (List Decl)
  | [] => return []
  | m :: ms => do
    let d ← hoistMember v container m
    let ds ← hoistMembers v container ms
    return d.toList ++ ds

/-- The members of the type of a variable. -/
def membersOfVar (s : Scope) (v : VarDecl) : Resolve (List Member) :=
  match v.tpe with
  | some (.object _ ms) => return ms
  | some (.ref _ q _) => return (← Resolve.afresh (s.membersOf q [])).getD []
  | _ => return []

/-- What is declared next to a declaration: the members of a variable that is a target, under names
that are not declared yet. -/
def hoistedBy (s : Scope) (targets existing : List Ident) (d : Decl) : Resolve (List Decl) := do
  match d with
  | .var v =>
    if targets.contains v.name then
      let ds ← hoistMembers v s.codePath (← membersOfVar s v)
      return ds.filter fun h => h.name?.any fun x => !existing.contains x
    else return []
  | _ => return []

/-- The declarations of a container with those that are hoisted into it. -/
def hoistAll (s : Scope) (targets existing : List Ident) :
    List Decl → Resolve (Edited (List Decl))
  | [] => return .keep []
  | d :: ds => do
    let hoisted ← hoistedBy s targets existing d
    let rest ← hoistAll s targets existing ds
    return ⟨d :: hoisted ++ rest.value, !hoisted.isEmpty || rest.changed⟩

def hoistHooks : Hooks Resolve Scope :=
  { Hooks.idle Scope.enter with
    newMembers := fun s _ ds => do
      let targets := exportEqualsTargets ds
      if targets.isEmpty then return none
      return (← hoistAll s targets (ds.filterMap Decl.name?) ds).toOption }

/-- Hoists the members of the exported variables of a file. -/
def hoistExports (root : Scope) (f : File) : Resolve (Edited File) :=
  walkFile hoistHooks root f

end Ambient
