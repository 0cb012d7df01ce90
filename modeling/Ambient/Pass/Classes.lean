import Ambient.Scope.Answer
import Ambient.Walk.Basic

/-!
# Classes for constructor-typed variables

A variable whose type has construct signatures describes a class: the construct signatures are its
constructors, the members of the constructed type its instance members, and the other members of
the variable's type its static members. The class takes the variable's place. If another type of the
container has its name, it gets a backup name.
-/

namespace Ambient

/-- The static side of a class, as the type of a variable describes it. -/
structure CtorShape where
  first : Signature
  rest : List Signature
  statics : List Member
  isAbstract : Bool

def CtorShape.ctors (c : CtorShape) : List Signature :=
  c.first :: c.rest

/-- The construct signatures and the static members of a class among the members of an object; none
if there is a member that a class cannot have. -/
def splitStatics : List Member → Option (List Signature × List Member)
  | [] => some ([], [])
  | m :: ms => do
    let (sigs, statics) ← splitStatics ms
    match m with
    | .ctor c => some (c.sig :: sigs, statics)
    | .property p =>
      if p.name = Ident.prototype then some (sigs, statics)
      else some (sigs, .property { p with isStatic := true } :: statics)
    | .function f => some (sigs, .function { f with isStatic := true } :: statics)
    | .call _ | .index _ | .mapped _ => none

/-- The static side that the members of an object describe, if a construct signature is among
them. -/
def CtorShape.ofMembers? (ms : List Member) : Option CtorShape :=
  match splitStatics ms with
  | some (s :: ss, statics) => some ⟨s, ss, statics, false⟩
  | _ => none

def Decl.isPlainInterface : Decl → Bool
  | .iface i => i.tparams.isEmpty
  | _ => false

/-- The static side that the type of a variable describes. -/
def ctorShape? (s : Scope) (t : Ty) : Resolve (Option CtorShape) :=
  match t with
  | .constructor _ a sig => return some ⟨sig, [], [], a⟩
  | .object _ ms => return CtorShape.ofMembers? ms
  | .ref _ q [] => do
    let found ← s.lookupType q []
    if found.any fun f => f.decl.isPlainInterface then
      return (← s.membersOf q []).bind CtorShape.ofMembers?
    else return none
  | _ => return none

/-- The instance side of a class, as the constructed type describes it. -/
structure InstanceSide where
  parent : Option Ty := none
  implements : List Ty := []
  members : List Member := []

def instanceMembers (ms : List Member) : List Member :=
  ms.filter fun m =>
    match m with
    | .call _ | .ctor _ => false
    | m => !m.isStatic

/-- The instance side that the constructed type describes: a class is the parent, an interface is
implemented, and an object gives its members. A type parameter says nothing. -/
def instanceSide (s : Scope) (tparams : List TypeParam) (result : Option Ty) :
    Resolve InstanceSide :=
  match result with
  | some (.object _ ms) => return { members := instanceMembers ms }
  | some (.ref i q ts) => do
    if (QIdent.single? q).any fun x => tparams.any fun p => p.name == x then return {}
    let found ← s.lookupType q []
    if found.any fun f => f.decl.isClass then return { parent := some (.ref i q ts) }
    if found.any fun f => f.decl.isInterface then
      let ms ← s.membersOf q []
      return { implements := [.ref i q ts], members := instanceMembers (ms.getD []) }
    return {}
  | _ => return {}

/-- The constructor of a class with the parameters of a construct signature. -/
def ctorMember (sig : Signature) : Member :=
  .function ⟨{ comments := sig.info.comments }, .default, Ident.constructor, .normal,
    ⟨{}, [], sig.params, none⟩, false, false⟩

/-- What the construct signatures construct, if they agree. -/
def CtorShape.result (c : CtorShape) : Option Ty :=
  if c.ctors.all fun s => s.result == c.first.result then c.first.result else none

/-- Does one of the declarations, `self` apart, define a type named `x`? -/
def isTypeOf (siblings : List Decl) (self : Decl) (x : Ident) : Bool :=
  siblings.any fun d =>
    d.unwrapExport.isType && !(self == d.unwrapExport) && d.unwrapExport.name? == some x

/-- The name for the class in the place of the variable: its own, or with the suffix if a type has
that. None if neither can be had. -/
def className? (suffix : String) (siblings : List Decl) (v : VarDecl) : Option Ident :=
  if siblings.any fun d => d.unwrapExport.isClass && d.unwrapExport.name? == some v.name then none
  else if isTypeOf siblings (.var v) v.name then
    let backup := v.name ++ suffix
    if siblings.any fun d => d.unwrapExport.name? == some backup then none else some backup
  else some v.name

/-- The class that a variable describes, under the name `x`. -/
def classOf (s : Scope) (v : VarDecl) (shape : CtorShape) (x : Ident) : Resolve Decl := do
  let inst ← instanceSide s shape.first.tparams shape.result
  let cls : Decl := .cls
    { info := { comments := v.info.comments.withMarker .expandedClass }
      declared := v.declared
      isAbstract := shape.isAbstract
      name := v.name
      tparams := shape.first.tparams
      parent := inst.parent
      implements := inst.implements
      members := shape.ctors.map ctorMember ++ inst.members ++ shape.statics
      jsLocation := v.jsLocation
      codePath := v.codePath }
  if x = v.name then return cls
  else
    match cls.renamed x with
    | .ok d => return d
    | .error e => throw (.violation e)

/-- The class in the place of a variable, if the variable describes one. All construct signatures
must have the same type parameters, which become those of the class. -/
def extractVar (suffix : String) (s : Scope) (siblings : List Decl) (v : VarDecl) :
    Resolve (Option Decl) := do
  if v.expr.isSome then return none
  match v.tpe with
  | none => return none
  | some t =>
    match ← ctorShape? s t with
    | none => return none
    | some shape =>
      if shape.ctors.any fun c => !(c.tparams == shape.first.tparams) then return none
      match className? suffix siblings v with
      | none => return none
      | some x => return some (← classOf s v shape x)

/-- The declaration in the place of a variable, or of an inline export of one. -/
def extractClass (suffix : String) (s : Scope) (siblings : List Decl) (d : Decl) :
    Resolve (Option Decl) :=
  match d with
  | .var v => extractVar suffix s siblings v
  | .exports h (.inline (.var v)) => do
    return (← extractVar suffix s siblings v).map fun c => .exports h (.inline c)
  | _ => return none

/-- The declarations of a container with classes in the place of variables. -/
def extractEach (suffix : String) (s : Scope) (siblings : List Decl) :
    List Decl → Resolve (Edited (List Decl))
  | [] => return .keep []
  | d :: ds => do
    let c ← Resolve.afresh (extractClass suffix s siblings d)
    let ds ← extractEach suffix s siblings ds
    return List.cons <$> (Edited.keep d).replace c <*> ds

def classHooks (suffix : String) : Hooks Resolve Scope :=
  { Hooks.idle Scope.enter with
    newMembers := fun s _ ds => return (← extractEach suffix s ds ds).toOption }

/-- Replaces the constructor-typed variables of a file by classes. -/
def extractClasses (suffix : String) (root : Scope) (f : File) : Resolve (Edited File) :=
  walkFile (classHooks suffix) root f

end Ambient
