import Ambient.Naming
import Ambient.Pass.Pending
import Ambient.Scope.Answer
import Ambient.Scope.FreeParams
import Ambient.Walk.Basic

/-!
# Interfaces for anonymous object types

An object type that is written out as the type of a field, parameter, result or variable becomes a
reference to a named interface, which is generic over the type parameters that it depends on.

The interface goes into the outermost container around the literal in which every name that the
literal mentions means the same as where the literal stands. Equal literals that go into one
container share an interface. The name comes from a hint on the literal, or else from the members.
-/

namespace Ambient

/-- The interfaces that wait, by the container they go into. -/
abbrev PendingByScope := List (ScopeKey × Pending)

/-- A search that may add interfaces. -/
abbrev Extract := StateT PendingByScope Resolve

instance : LawfulMonad Extract := inferInstanceAs (LawfulMonad (StateT PendingByScope Resolve))

/-- Is the node one whose type gets a name of its own? -/
def Node.namesItsType : Node → Bool
  | .member (.property _) | .member (.index _) | .param _ | .sig _ | .decl (.var _) => true
  | _ => false

def Node.isTy : Node → Bool
  | .ty _ => true
  | _ => false

def Node.isConditional : Node → Bool
  | .ty (.conditional _ _ _ _) => true
  | _ => false

/-- Should a literal at `s` get a name? The nearest node around it that is not a type decides.
Inside a conditional type a literal may mention what `infer` binds, so it stays. -/
def Scope.isExtractable (s : Scope) : Bool :=
  !s.stack.any Node.isConditional &&
    ((s.stack.drop 1).find? fun n => !n.isTy).any Node.namesItsType

/-- The containers around, innermost first. -/
def Scope.containers (s : Scope) : List Scope :=
  s.outwards.filter Scope.isContainer

namespace PendingByScope

/-- The interfaces that wait for a container. -/
def waiting (pending : PendingByScope) (c : Scope) : Pending :=
  (pending.lookup c.key).getD []

/-- The interfaces that wait, with one more for the container. -/
def add (pending : PendingByScope) (c : Scope) (i : InterfaceDecl) : PendingByScope :=
  put c.key ((pending.waiting c).insert i) pending

/-- Does an interface that waits for one of the containers have the name `x`? -/
def isTaken (pending : PendingByScope) (containers : List Scope) (x : Ident) : Bool :=
  containers.any fun c => (pending.waiting c).isTaken x

end PendingByScope

/-- Where an interface that stands for a literal goes. -/
structure Placement where
  /-- The containers around the literal that are inside the chosen one, innermost first. -/
  inner : List Scope
  container : Scope
  interface : InterfaceDecl

/-- The names that an interface with the type parameters and members mentions, its own type
parameters apart. -/
def namesMentioned (tparams : List TypeParam) (ms : List Member) : List QIdent :=
  let names := (Member.partsList ms ++ TypeParam.partsList tparams).filterMap Ty.refName?
  distinct (names.filter fun q =>
    !(QIdent.single? q).any fun x => tparams.any fun p => p.name == x)

/-- Does the name denote the same declarations in both scopes? -/
def sameMeaning (s t : Scope) (q : QIdent) : Resolve Bool := do
  let here ← Resolve.afresh (s.lookupWith .all q [])
  let there ← Resolve.afresh (t.lookupWith .all q [])
  return here.map (·.decl.id) == there.map (·.decl.id)

def sameMeanings (s t : Scope) : List QIdent → Resolve Bool
  | [] => return true
  | q :: qs => do
    if ← sameMeaning s t q then sameMeanings s t qs else return false

/-- The outermost of the containers `outer` that an interface with these names can go into,
together with those inside it. `inner` are the containers passed so far, innermost first, and their
last is the answer when no further one will do. -/
def placeInterface (pending : PendingByScope) (s : Scope) (names : List QIdent) :
    List Scope → List Scope → Resolve (List Scope)
  | inner, [] => return inner
  | inner, c :: outer => do
    if names.any fun q => q.head?.any (pending.isTaken inner) then return inner
    if ← sameMeanings s c names then placeInterface pending s names (inner ++ [c]) outer
    else return inner

/-- Does the name denote anything at `s`? -/
def isVisible (s : Scope) (x : Ident) : Resolve Bool := do
  return !(← Resolve.afresh (s.lookupWith .all [x] [])).isEmpty

/-- An equal interface that waits for the container and can be meant at `s`. -/
def reusable? (pending : PendingByScope) (s : Scope) (inner : List Scope) (container : Scope)
    (tparams : List TypeParam) (ms : List Member) : Resolve (Option InterfaceDecl) := do
  match (pending.waiting container).findEqual? tparams ms with
  | none => return none
  | some i =>
    if (← isVisible s i.name) || pending.isTaken inner i.name then return none else return some i

/-- A new name for an interface, free in all containers. There are no more taken names than
interfaces that wait and declarations in reach. -/
def newName (stem : String) (pending : PendingByScope) (s : Scope) (comments : Comments)
    (ms : List Member) : Resolve Ident := do
  let isFree (x : Ident) : Resolve Bool := do
    if pending.isTaken s.containers x then return false
    return !(← isVisible s x)
  let limit := total (fun p => p.2.length) pending + s.reach + 1
  let derive (stem : String) : Resolve Ident := do
    match ← deriveName isFree limit stem ms with
    | some x => return x
    | none => Resolve.exhausted
  match comments.nameHint? with
  | some hint => if ← isFree hint then return hint else derive hint
  | none => derive stem

/-- The interface for a literal at `s` with the given comments, members and type parameters. A new one
is left to wait for its container. -/
def placeLiteral (stem : String) (s : Scope) (comments : Comments) (ms : List Member)
    (tparams : List TypeParam) : Extract Placement := do
  let pending ← get
  let names := namesMentioned tparams ms
  let chain ← placeInterface pending s names (s.containers.take 1) (s.containers.drop 1)
  let inner := chain.dropLast
  let container := chain.getLast?.getD s
  match ← reusable? pending s inner container tparams ms with
  | some i => return ⟨inner, container, i⟩
  | none =>
    let x ← newName stem pending s comments ms
    let interface : InterfaceDecl :=
      ⟨{ comments := comments }, true, x, tparams, [], ms, container.codePath.add x⟩
    set (pending.add container interface)
    return ⟨inner, container, interface⟩

/-- The interface for a type at `s`, if the type is a literal that gets a name. -/
def placement? (stem : String) (s : Scope) (t : Ty) : Extract (Option Placement) := do
  match t with
  | .object info ms =>
    if ms.isEmpty || Member.isDictionary ms || Member.isTypeMapping ms || !s.isExtractable ||
        s.containers.isEmpty then
      return none
    return some (← placeLiteral stem s info.comments ms (s.paramsOf t))
  | _ => return none

/-- The reference that takes the place of a literal at `s`. -/
def Placement.reference (s : Scope) (t : Ty) (p : Placement) : Ty :=
  .ref {} [p.interface.name] ((s.paramsOf t).map TypeParam.asTy)

/-- The reference that takes the place of a type at `s`, if the type is a literal that gets a name. -/
def extractInterface (stem : String) (s : Scope) (t : Ty) : Extract (Option Ty) := do
  return (← placement? stem s t).map (Placement.reference s t)

/-- Adds the interfaces that wait for the container `s` to its declarations. -/
def emitInterfaces (s : Scope) (ds : List Decl) : Extract (Option (List Decl)) := do
  let pending ← get
  match pending.lookup s.key with
  | none => return none
  | some waiting =>
    set (pending.filter fun p => !(p.1 == s.key))
    return some (ds ++ waiting.map Decl.iface)

def interfaceHooks (stem : String) : Hooks Extract Scope :=
  { Hooks.idle Scope.enter with
    leaveTy := extractInterface stem
    newMembers := fun s _ ds => emitInterfaces s ds }

/-- Replaces the anonymous object types of a file by interfaces. -/
def extractInterfaces (stem : String) (root : Scope) (f : File) : Resolve (Edited File) := do
  return (← (walkFile (interfaceHooks stem) root f).run []).1

end Ambient
