import Ambient.Comment
import Ambient.CodePath

/-!
# Declaration trees

The tree of a declaration file: types, members of objects and classes, initialisers, declarations
and the file itself.

Every node that a scope can be entered through carries a number, its identity. Two nodes may be
equal in all they say and still be different nodes. A number is given when a file is taken up for
resolution (`File.number`); until then it is zero.
-/

namespace Ambient

/-- The identity of a node. -/
abbrev NodeId := Nat

/-- What a node carries besides its content: its identity and its comments. -/
structure NodeInfo where
  id : NodeId := 0
  comments : Comments := []
  deriving Inhabited, Repr

/-- A literal value. Numbers are kept as they were written. -/
inductive Literal where
  | num (text : String)
  | str (text : String)
  | bool (value : Bool)
  deriving DecidableEq, Repr

/-- The literal as the name of a property, if it can be one. -/
def Literal.key? : Literal → Option Ident
  | .num text => some text
  | .str text => some text
  | .bool _ => none

/-- Who may use a member. -/
inductive Level where
  | default
  | ownClass
  | subclasses
  deriving DecidableEq, Repr

/-- How a method is used: called, read or assigned. -/
inductive MethodKind where
  | normal
  | getter
  | setter
  deriving DecidableEq, Repr

/-- What a mapped type does to the `readonly` of each property. -/
inductive ReadonlyModifier where
  | noop
  | yes
  | no
  deriving DecidableEq, Repr

/-- What a mapped type does to the optionality of each property. -/
inductive OptionalModifier where
  | noop
  | optionalize
  | deoptionalize
  deriving DecidableEq, Repr

mutual

inductive Ty where
  /-- A named type, a built-in type or a type parameter. -/
  | ref (info : NodeInfo) (name : QIdent) (targs : List Ty)
  | literal (id : NodeId) (value : Literal)
  /-- A list of members: an anonymous object type or a mapped type. -/
  | object (info : NodeInfo) (members : List Member)
  | function (sig : Signature)
  | constructor (id : NodeId) (isAbstract : Bool) (sig : Signature)
  | tuple (id : NodeId) (elems : List TupleElem)
  /-- `typeof x` -/
  | query (id : NodeId) (name : QIdent)
  /-- A rest element `...T`. -/
  | repeated (id : NodeId) (elem : Ty)
  | keyOf (id : NodeId) (target : Ty)
  /-- Indexed access `T[K]`. -/
  | lookup (id : NodeId) (source : Ty) (key : Ty)
  | this
  | union (id : NodeId) (types : List Ty)
  | intersect (id : NodeId) (types : List Ty)
  | conditional (id : NodeId) (pred : Ty) (ifTrue : Ty) (ifFalse : Ty)
  /-- `T extends U`, the question of a conditional type. -/
  | extending (id : NodeId) (tpe : Ty) (bound : Ty)
  | infer (tparam : TypeParam)
  /-- The predicate `x is T`. -/
  | is (id : NodeId) (subject : Ident) (tpe : Ty)

/-- An element of a tuple type. -/
structure TupleElem where
  label : Option Ident
  tpe : Ty

/-- A type parameter, with its bound and its default. -/
structure TypeParam where
  info : NodeInfo
  name : Ident
  upperBound : Option Ty
  default : Option Ty

/-- A parameter of a function. An optional one has the type `T | undefined`. -/
structure Param where
  info : NodeInfo
  name : Ident
  tpe : Option Ty

/-- The signature of a function, method or constructor. -/
structure Signature where
  info : NodeInfo
  tparams : List TypeParam
  params : List Param
  result : Option Ty

/-- A member of an object type, a class or an interface. -/
inductive Member where
  /-- A call signature. -/
  | call (c : CallMember)
  /-- A construct signature. -/
  | ctor (c : CallMember)
  | function (m : Method)
  | property (p : Property)
  | index (i : IndexMember)
  | mapped (m : MappedMember)

/-- A call or construct signature among the members. -/
structure CallMember where
  info : NodeInfo
  level : Level
  sig : Signature

structure Method where
  info : NodeInfo
  level : Level
  name : Ident
  kind : MethodKind
  sig : Signature
  isStatic : Bool
  isReadonly : Bool

structure Property where
  info : NodeInfo
  level : Level
  name : Ident
  tpe : Option Ty
  expr : Option Expr
  isStatic : Bool
  isReadonly : Bool

/-- What stands between the brackets of an index signature. -/
inductive Indexing where
  /-- `[key: K]`, any key of a type. -/
  | dict (name : Ident) (tpe : Ty)
  /-- `[Symbol.iterator]`, one computed name. -/
  | single (name : QIdent)

structure IndexMember where
  info : NodeInfo
  isReadonly : Bool
  level : Level
  indexing : Indexing
  value : Option Ty

/-- A mapped type's rule `[K in S as N]: T`. -/
structure MappedMember where
  info : NodeInfo
  level : Level
  readonly : ReadonlyModifier
  key : Ident
  source : Ty
  asName : Option Ty
  optionalize : OptionalModifier
  target : Ty

/-- An initialiser. -/
inductive Expr where
  | ref (name : QIdent)
  | literal (value : Literal)
  | call (function : Expr) (params : List Expr)
  | unary (op : String) (expr : Expr)
  | binary (left : Expr) (op : String) (right : Expr)
  | cast (expr : Expr) (tpe : Ty)
  | arrayOf (expr : Expr)

end

instance : Inhabited Ty := ⟨.this⟩
instance : Inhabited Signature := ⟨⟨{}, [], [], none⟩⟩
instance : Inhabited TypeParam := ⟨⟨{}, "", none, none⟩⟩

structure ClassDecl where
  info : NodeInfo
  declared : Bool
  isAbstract : Bool
  name : Ident
  tparams : List TypeParam
  parent : Option Ty
  implements : List Ty
  members : List Member
  jsLocation : JsLocation
  codePath : CodePath

structure InterfaceDecl where
  info : NodeInfo
  declared : Bool
  name : Ident
  tparams : List TypeParam
  inheritance : List Ty
  members : List Member
  codePath : CodePath

/-- A member of an enumeration. -/
structure EnumMember where
  comments : Comments
  name : Ident
  expr : Option Expr

structure EnumDecl where
  info : NodeInfo
  declared : Bool
  isConst : Bool
  name : Ident
  members : List EnumMember
  isValue : Bool
  exportedFrom : Option Ty
  jsLocation : JsLocation
  codePath : CodePath

structure VarDecl where
  info : NodeInfo
  declared : Bool
  readonly : Bool
  name : Ident
  tpe : Option Ty
  expr : Option Expr
  jsLocation : JsLocation
  codePath : CodePath

structure FunctionDecl where
  info : NodeInfo
  declared : Bool
  name : Ident
  sig : Signature
  jsLocation : JsLocation
  codePath : CodePath

structure AliasDecl where
  info : NodeInfo
  declared : Bool
  name : Ident
  tparams : List TypeParam
  target : Ty
  codePath : CodePath

/-- One binding form of an import. -/
inductive Imported where
  /-- `import x from …` or `import x = …` -/
  | name (x : Ident)
  /-- `import { a, b as c } from …` -/
  | destructured (names : List (Ident × Option Ident))
  /-- `import * as x from …` -/
  | star (name : Option Ident)
  deriving DecidableEq, Repr

/-- What an import takes its names from. -/
inductive Importee where
  /-- `require("m")` -/
  | required (module : Ident)
  /-- `from "m"` -/
  | module (module : Ident)
  /-- A name of the program itself: `import x = A.B`. -/
  | inner (name : QIdent)
  deriving DecidableEq, Repr

structure ImportDecl where
  id : NodeId
  typeOnly : Bool
  imported : List Imported
  source : Importee

/-- The form of an export. -/
inductive ExportKind where
  /-- `export …` -/
  | named
  /-- `export default …` -/
  | defaulted
  /-- `export = …` -/
  | namespaced
  deriving DecidableEq, Repr

/-- The head of a namespace or an ambient module. -/
structure SpaceHead where
  info : NodeInfo
  declared : Bool
  name : Ident
  codePath : CodePath
  jsLocation : JsLocation

/-- The head of an augmentation of a module that is declared elsewhere. -/
structure AugmentHead where
  info : NodeInfo
  name : Ident
  codePath : CodePath
  jsLocation : JsLocation

/-- The head of a `declare global` block. -/
structure GlobalHead where
  info : NodeInfo
  declared : Bool
  codePath : CodePath

/-- The head of an export. -/
structure ExportHead where
  info : NodeInfo
  typeOnly : Bool
  kind : ExportKind

/-- `export as namespace X` -/
structure NamespaceExport where
  id : NodeId
  name : Ident

mutual

inductive Decl where
  /-- `namespace N { … }` -/
  | space (head : SpaceHead) (members : List Decl)
  /-- `declare module "m" { … }` -/
  | module (head : SpaceHead) (members : List Decl)
  | augmentation (head : AugmentHead) (members : List Decl)
  | global (head : GlobalHead) (members : List Decl)
  | cls (c : ClassDecl)
  | iface (i : InterfaceDecl)
  | enum (e : EnumDecl)
  | var (v : VarDecl)
  | function (f : FunctionDecl)
  | typeAlias (a : AliasDecl)
  | imports (i : ImportDecl)
  | exports (head : ExportHead) (exportee : Exportee)
  | exportAs (e : NamespaceExport)

/-- What an export makes visible. -/
inductive Exportee where
  /-- `export { a, b as c }`, of the scope or of another module. -/
  | names (names : List (QIdent × Option Ident)) (source : Option Ident)
  /-- A declaration that is exported where it stands. -/
  | inline (decl : Decl)
  /-- `export * from "m"` or `export * as x from "m"` -/
  | star (name : Option Ident) (source : Ident)

end

/-- A triple-slash directive at the top of a file. -/
inductive Directive where
  | typesRef (text : String)
  | pathRef (text : String)
  | libRef (text : String)
  | noStdLib
  deriving DecidableEq, Repr

/-- A declaration file: the whole of a library. -/
structure File where
  info : NodeInfo
  directives : List Directive
  members : List Decl
  codePath : CodePath

/-- A node that a scope can be entered through. -/
inductive Node where
  | file (f : File)
  | decl (d : Decl)
  | member (m : Member)
  | ty (t : Ty)
  | sig (s : Signature)
  | param (p : Param)
  | tparam (p : TypeParam)

end Ambient
