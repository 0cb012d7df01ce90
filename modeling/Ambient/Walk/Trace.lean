import Ambient.Tree.Label
import Ambient.Walk.Basic

/-!
# Looking at a walk

A transformation that writes down every hook that a walk calls, with the depth of the node and a
description of it, and that edits nodes by simple rules. It shows the order of a walk and which
nodes an edit makes anew.
-/

namespace Ambient

/-- The edits that a traced walk makes; each list maps old texts to new ones. -/
structure TraceRules where
  /-- New names of references, on entering. -/
  enterRefs : List (String × String) := []
  /-- New names of references, on leaving. -/
  leaveRefs : List (String × String) := []
  /-- New texts of number literals in initialisers. -/
  nums : List (String × String) := []
  /-- New names of parameters. -/
  params : List (String × String) := []
  /-- New names of type parameters. -/
  tparams : List (String × String) := []
  /-- New names of declarations. -/
  renames : List (String × String) := []
  /-- The names of declarations and members to leave out. -/
  drop : List String := []
  /-- The reference on which the walk fails. -/
  fail : Option String := none
  /-- Are result types taken off signatures? -/
  stripResults : Bool := false

/-- A walk that writes down what it does, newest first, and may fail. -/
abbrev Tracing := ExceptT Violation (StateM (List String))

/-- Writes down a hook at a depth. -/
def Tracing.note (depth : Nat) (hook label : String) : Tracing Unit :=
  modify fun events => (toString depth ++ " " ++ hook ++ " " ++ label) :: events

namespace TraceRules

def newRef? (names : List (String × String)) : Ty → Option QIdent
  | .ref _ q _ => (names.lookup (QIdent.text q)).map QIdent.parse
  | _ => none

def leaveTy (r : TraceRules) (t : Ty) : Tracing (Option Ty) := do
  match t with
  | .ref i q ts =>
    if r.fail = some (QIdent.text q) then throw (.relocateWithoutCodePath (QIdent.text q))
    return (newRef? r.leaveRefs t).map fun q => .ref i q ts
  | _ => return none

def leaveExpr (r : TraceRules) : Expr → Option Expr
  | .literal (.num text) => (r.nums.lookup text).map fun text => .literal (.num text)
  | _ => none

def leaveDecl (r : TraceRules) (d : Decl) : Tracing (Option Decl) :=
  match d.name?.bind (r.renames.lookup ·) with
  | none => return none
  | some x =>
    match d.renamed x with
    | .ok d => return some d
    | .error e => throw e

/-- The list without the elements of a dropped name; `none` if there are none. -/
def dropNamed {α : Type} (r : TraceRules) (name? : α → Option Ident) (as : List α) :
    Option (List α) :=
  let isDropped (a : α) : Bool := (name? a).any r.drop.contains
  if as.any isDropped then some (as.filter fun a => !isDropped a) else none

/-- The hooks of a traced walk. The context is the depth of the node. -/
def hooks (r : TraceRules) : Hooks Tracing Nat where
  within depth _ := depth + 1
  enterFile n x := do
    Tracing.note n "enter" (Node.file x).label
    return none
  enterDecl n x := do
    Tracing.note n "enter" x.label
    return none
  enterMember n x := Tracing.note n "enter" x.label
  enterTy n x := do
    Tracing.note n "enter" x.label
    return newRef? r.enterRefs x
  enterSig n x := Tracing.note n "enter" (Node.sig x).label
  enterParam n x := do
    Tracing.note n "enter" (Node.param x).label
    return r.params.lookup x.name
  enterTypeParam n x := Tracing.note n "enter" (Node.tparam x).label
  enterExpr n x := Tracing.note n "enter-expr" x.label
  newMembers n owner ds := do
    Tracing.note n ("members " ++ toString ds.length) owner.label
    return r.dropNamed Decl.name? ds
  newClassMembers n owner ms := do
    Tracing.note n ("class-members " ++ toString ms.length) owner.label
    return r.dropNamed Member.name? ms
  leaveFile n x := do
    Tracing.note n "leave" (Node.file x).label
    return none
  leaveDecl n x := do
    Tracing.note n "leave" x.label
    r.leaveDecl x
  leaveMember n x := do
    Tracing.note n "leave" x.label
    return none
  leaveTy n x := do
    Tracing.note n "leave" x.label
    r.leaveTy x
  leaveSig n x := do
    Tracing.note n "leave" (Node.sig x).label
    return if r.stripResults && x.result.isSome then some { x with result := none } else none
  leaveParam n x := do
    Tracing.note n "leave" (Node.param x).label
    return none
  leaveTypeParam n x := do
    Tracing.note n "leave" (Node.tparam x).label
    return (r.tparams.lookup x.name).map fun y => { x with name := y }
  leaveExpr n x := do
    Tracing.note n "leave-expr" x.label
    return r.leaveExpr x

end TraceRules

/-- Walks a file by the rules; gives the edited file or the violation, and what was written down,
oldest first. -/
def traceFile (r : TraceRules) (f : File) : Except Violation (Edited File) × List String :=
  let (result, events) := (walkFile r.hooks 0 f).run.run []
  (result, events.reverse)

end Ambient
