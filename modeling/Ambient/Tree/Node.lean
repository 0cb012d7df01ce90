import Ambient.Tree.Basic

/-!
# What can be asked of a node

Identity, name, comments, place and members of the nodes of a tree. Each question is answered for
the nodes that have an answer and by `none` for the others.
-/

namespace Ambient

/-! ## Types -/

/-- The identity of a type. A function type is identified by its signature, an `infer` by its type
parameter; all occurrences of `this` are one node. -/
def Ty.id : Ty → NodeId
  | .ref info _ _ | .object info _ => info.id
  | .function sig => sig.info.id
  | .infer tparam => tparam.info.id
  | .this => 0
  | .literal id _ | .constructor id _ _ | .tuple id _ | .query id _ | .repeated id _ | .keyOf id _
  | .lookup id _ _ | .union id _ | .intersect id _ | .conditional id _ _ _ | .extending id _ _
  | .is id _ _ => id

/-- Is the type a reference to the simple name `x` without type arguments? -/
def Ty.isNamed (x : Ident) : Ty → Bool
  | .ref _ [y] [] => x == y
  | _ => false

def Ty.isUndefined : Ty → Bool := Ty.isNamed "undefined"

def Ty.isNever : Ty → Bool := Ty.isNamed "never"

/-- The reference to a type parameter. -/
def TypeParam.asTy (p : TypeParam) : Ty :=
  .ref {} [p.name] []

/-! ## Members -/

/-- The name of a method or property. -/
def Member.name? : Member → Option Ident
  | .function m => some m.name
  | .property p => some p.name
  | .call _ | .ctor _ | .index _ | .mapped _ => none

/-- The identity and comments of a member. -/
def Member.info : Member → NodeInfo
  | .call c | .ctor c => c.info
  | .function m => m.info
  | .property p => p.info
  | .index i => i.info
  | .mapped m => m.info

/-- Does the member belong to the class rather than to its instances? -/
def Member.isStatic : Member → Bool
  | .function m => m.isStatic
  | .property p => p.isStatic
  | .call _ | .ctor _ | .index _ | .mapped _ => false

/-- Is the member a constructor of its class? -/
def Member.isClassCtor : Member → Bool
  | .function m => m.name == Ident.constructor && !m.isStatic
  | _ => false

/-- Is the member an index signature over all keys of a type? -/
def Member.isDict : Member → Bool
  | .index { indexing := .dict _ _, .. } => true
  | _ => false

/-- Is the member the rule of a mapped type? -/
def Member.isMapped : Member → Bool
  | .mapped _ => true
  | _ => false

/-- Do the members say nothing but how to index? -/
def Member.isDictionary (ms : List Member) : Bool :=
  !ms.isEmpty && ms.all Member.isDict

/-- Is a mapped type's rule among the members? -/
def Member.isTypeMapping (ms : List Member) : Bool :=
  ms.any Member.isMapped

/-! ## Declarations -/

namespace Decl

def id : Decl → NodeId
  | .space h _ | .module h _ => h.info.id
  | .augmentation h _ => h.info.id
  | .global h _ => h.info.id
  | .cls c => c.info.id
  | .iface i => i.info.id
  | .enum e => e.info.id
  | .var v => v.info.id
  | .function f => f.info.id
  | .typeAlias a => a.info.id
  | .imports i => i.id
  | .exports h _ => h.info.id
  | .exportAs e => e.id

/-- The name that the declaration gives to something; a module has its module name. -/
def name? : Decl → Option Ident
  | .space h _ | .module h _ => some h.name
  | .augmentation h _ => some h.name
  | .cls c => some c.name
  | .iface i => some i.name
  | .enum e => some e.name
  | .var v => some v.name
  | .function f => some f.name
  | .typeAlias a => some a.name
  | .global _ _ | .imports _ | .exports _ _ | .exportAs _ => none

def comments? : Decl → Option Comments
  | .space h _ | .module h _ => some h.info.comments
  | .augmentation h _ => some h.info.comments
  | .global h _ => some h.info.comments
  | .cls c => some c.info.comments
  | .iface i => some i.info.comments
  | .enum e => some e.info.comments
  | .var v => some v.info.comments
  | .function f => some f.info.comments
  | .typeAlias a => some a.info.comments
  | .exports h _ => some h.info.comments
  | .imports _ | .exportAs _ => none

/-- The place of a declaration in its library. -/
def codePath? : Decl → Option CodePath
  | .space h _ | .module h _ => some h.codePath
  | .augmentation h _ => some h.codePath
  | .global h _ => some h.codePath
  | .cls c => some c.codePath
  | .iface i => some i.codePath
  | .enum e => some e.codePath
  | .var v => some v.codePath
  | .function f => some f.codePath
  | .typeAlias a => some a.codePath
  | .imports _ | .exports _ _ | .exportAs _ => none

/-- Where the declared value is found at run time. -/
def jsLocation? : Decl → Option JsLocation
  | .space h _ | .module h _ => some h.jsLocation
  | .augmentation h _ => some h.jsLocation
  | .cls c => some c.jsLocation
  | .enum e => some e.jsLocation
  | .var v => some v.jsLocation
  | .function f => some f.jsLocation
  | .global _ _ | .iface _ | .typeAlias _ | .imports _ | .exports _ _ | .exportAs _ => none

def isType : Decl → Bool
  | .cls _ | .iface _ | .typeAlias _ | .enum _ => true
  | _ => false

def isValue : Decl → Bool
  | .var _ | .function _ | .cls _ | .space _ _ => true
  | .enum e => e.isValue
  | _ => false

def isClass : Decl → Bool
  | .cls _ => true
  | _ => false

def isInterface : Decl → Bool
  | .iface _ => true
  | _ => false

/-- The declarations inside a namespace, module, augmentation or global block. -/
def members? : Decl → Option (List Decl)
  | .space _ ms | .module _ ms | .augmentation _ ms | .global _ ms => some ms
  | _ => none

/-- The members of a class or interface. -/
def classMembers? : Decl → Option (List Member)
  | .cls c => some c.members
  | .iface i => some i.members
  | _ => none

/-- The type parameters that the declaration introduces. -/
def tparams : Decl → List TypeParam
  | .cls c => c.tparams
  | .iface i => i.tparams
  | .typeAlias a => a.tparams
  | .function f => f.sig.tparams
  | _ => []

/-- The declaration that an inline export exports; any other declaration is itself. -/
def unwrapExport : Decl → Decl
  | .exports _ (.inline d) => d
  | d => d

end Decl

/-! ## Nodes -/

namespace Node

def id : Node → NodeId
  | .file f => f.info.id
  | .decl d => d.id
  | .member m => m.info.id
  | .ty t => t.id
  | .sig s => s.info.id
  | .param p => p.info.id
  | .tparam p => p.info.id

def name? : Node → Option Ident
  | .decl d => d.name?
  | .member m => m.name?
  | .param p => some p.name
  | .tparam p => some p.name
  | .file _ | .ty _ | .sig _ => none

/-- The place of a node in its library. -/
def codePath? : Node → Option CodePath
  | .file f => some f.codePath
  | .decl d => d.codePath?
  | _ => none

/-- The declarations that a container holds: a file, namespace, module, augmentation or global
block. -/
def members? : Node → Option (List Decl)
  | .file f => some f.members
  | .decl d => d.members?
  | _ => none

/-- Does the node contain declarations? -/
def isContainer (n : Node) : Bool :=
  n.members?.isSome

/-- The members of a class, interface or object type. -/
def classMembers? : Node → Option (List Member)
  | .decl d => d.classMembers?
  | .ty (.object _ ms) => some ms
  | _ => none

/-- The type parameters that the node introduces. -/
def tparams : Node → List TypeParam
  | .decl d => d.tparams
  | .sig s => s.tparams
  | .member (.function m) => m.sig.tparams
  | .member (.call c) => c.sig.tparams
  | .member (.ctor c) => c.sig.tparams
  | .ty (.function s) => s.tparams
  | .ty (.constructor _ _ s) => s.tparams
  | _ => []

/-- The key that a mapped type's rule introduces. -/
def typeKey? : Node → Option Ident
  | .member (.mapped m) => some m.key
  | _ => none

/-- The signature of a function, method, call or construct signature, or function type. -/
def sig? : Node → Option Signature
  | .decl (.function f) => some f.sig
  | .member (.function m) => some m.sig
  | .member (.call c) => some c.sig
  | .member (.ctor c) => some c.sig
  | .ty (.function s) => some s
  | .ty (.constructor _ _ s) => some s
  | .sig s => some s
  | _ => none

/-- The type that a variable, alias, property, index signature, mapped type or parameter gives. -/
def type? : Node → Option Ty
  | .decl (.var v) => v.tpe
  | .decl (.typeAlias a) => some a.target
  | .member (.property p) => p.tpe
  | .member (.index i) => i.value
  | .member (.mapped m) => some m.target
  | .param p => p.tpe
  | _ => none

/-- The declaration that an inline export holds. -/
def exportee? : Node → Option Decl
  | .decl (.exports _ (.inline d)) => some d
  | _ => none

end Node

end Ambient
