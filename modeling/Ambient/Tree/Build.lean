import Ambient.Tree.Node

/-!
# Making nodes

Short forms for nodes without comments and with the usual settings. A declaration made here is
`declared` and has no place yet.
-/

namespace Ambient

namespace Ty

/-- A reference with type arguments. -/
def reference (name : QIdent) (targs : List Ty) : Ty :=
  .ref {} name targs

/-- A reference to a dotted name. -/
def named (dotted : String) : Ty :=
  reference (QIdent.parse dotted) []

def string : Ty := reference ["string"] []

def number : Ty := reference ["number"] []

def boolean : Ty := reference ["boolean"] []

def any : Ty := reference ["any"] []

def void : Ty := reference ["void"] []

def undefined : Ty := reference ["undefined"] []

def null : Ty := reference ["null"] []

def never : Ty := reference ["never"] []

def unknown : Ty := reference ["unknown"] []

def strLit (text : String) : Ty :=
  .literal 0 (.str text)

def numLit (text : String) : Ty :=
  .literal 0 (.num text)

def ofMembers (ms : List Member) : Ty :=
  .object {} ms

def ofConstructor (sig : Signature) : Ty :=
  .constructor 0 false sig

def ofUnion (ts : List Ty) : Ty :=
  .union 0 ts

def ofIntersect (ts : List Ty) : Ty :=
  .intersect 0 ts

end Ty

/-- A type parameter without bound and default. -/
def TypeParam.ofName (x : Ident) : TypeParam :=
  ⟨{}, x, none, none⟩

/-- A parameter of the given type. -/
def Param.ofType (x : Ident) (t : Ty) : Param :=
  ⟨{}, x, some t⟩

/-- A signature without type parameters. -/
def Signature.ofParams (ps : List Param) (result : Option Ty) : Signature :=
  ⟨{}, [], ps, result⟩

namespace Member

def ofType (x : Ident) (t : Ty) : Member :=
  .property ⟨{}, .default, x, some t, none, false, false⟩

def ofSignature (x : Ident) (sig : Signature) : Member :=
  .function ⟨{}, .default, x, .normal, sig, false, false⟩

def ofCall (sig : Signature) : Member :=
  .call ⟨{}, .default, sig⟩

def ofCtor (sig : Signature) : Member :=
  .ctor ⟨{}, .default, sig⟩

/-- An index signature over the keys of a type. -/
def ofDict (x : Ident) (key value : Ty) : Member :=
  .index ⟨{}, false, .default, .dict x key, some value⟩

end Member

namespace Decl

/-- A read-only variable. -/
def ofVar (x : Ident) (t : Ty) : Decl :=
  .var ⟨{}, true, true, x, some t, none, .zero, .noPath⟩

def ofInterface (x : Ident) (ms : List Member) : Decl :=
  .iface ⟨{}, true, x, [], [], ms, .noPath⟩

def ofClass (x : Ident) (parent : Option Ty) (ms : List Member) : Decl :=
  .cls ⟨{}, true, false, x, [], parent, [], ms, .zero, .noPath⟩

def ofFunction (x : Ident) (sig : Signature) : Decl :=
  .function ⟨{}, true, x, sig, .zero, .noPath⟩

def ofAlias (x : Ident) (t : Ty) : Decl :=
  .typeAlias ⟨{}, true, x, [], t, .noPath⟩

def ofSpace (x : Ident) (ms : List Decl) : Decl :=
  .space ⟨{}, true, x, .noPath, .zero⟩ ms

/-- An ambient module, found at run time under its own name. -/
def ofModule (x : Ident) (ms : List Decl) : Decl :=
  .module ⟨{}, true, x, .noPath, .module x []⟩ ms

/-- `export { … }`, of the scope or of another module. -/
def ofExportNames (names : List (QIdent × Option Ident)) (source : Option Ident) : Decl :=
  .exports ⟨{}, false, .named⟩ (.names names source)

/-- `export * from "m"` -/
def ofExportStar (source : Ident) : Decl :=
  .exports ⟨{}, false, .named⟩ (.star none source)

/-- `export = x` -/
def ofExportEquals (name : QIdent) : Decl :=
  .exports ⟨{}, false, .namespaced⟩ (.names [(name, none)] none)

/-- A declaration exported where it stands. -/
def ofExportInline (d : Decl) : Decl :=
  .exports ⟨{}, false, .named⟩ (.inline d)

def ofImport (imported : List Imported) (source : Importee) : Decl :=
  .imports ⟨0, false, imported, source⟩

end Decl

def File.ofMembers (lib : Ident) (ms : List Decl) : File :=
  ⟨{}, [], ms, CodePath.root lib⟩

/-- The file with other declarations in it. -/
def File.withMembers (f : File) (ms : List Decl) : File :=
  { f with members := ms }

end Ambient
