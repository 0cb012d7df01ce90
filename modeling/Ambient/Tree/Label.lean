import Ambient.Tree.Node

/-!
# Short descriptions of nodes

One line of text per node, for listings: the kind of the node and its name, operator or value.
-/

namespace Ambient

def Decl.kind : Decl → String
  | .space _ _ => "Namespace"
  | .module _ _ => "Module"
  | .augmentation _ _ => "AugmentedModule"
  | .global _ _ => "Global"
  | .cls _ => "Class"
  | .iface _ => "Interface"
  | .enum _ => "Enum"
  | .var _ => "Var"
  | .function _ => "Function"
  | .typeAlias _ => "TypeAlias"
  | .imports _ => "Import"
  | .exports _ _ => "Export"
  | .exportAs _ => "ExportAsNamespace"

def Member.kind : Member → String
  | .call _ => "Call"
  | .ctor _ => "Ctor"
  | .function _ => "Function"
  | .property _ => "Property"
  | .index _ => "Index"
  | .mapped _ => "Mapped"

/-- A kind, followed by a name if there is one. -/
def labelled (kind : String) : Option Ident → String
  | none => kind
  | some x => kind ++ " " ++ x

def Decl.label (d : Decl) : String :=
  labelled d.kind d.name?

def Member.label (m : Member) : String :=
  labelled m.kind m.name?

def Literal.label : Literal → String
  | .num text => "Num " ++ text
  | .str text => "Str " ++ text
  | .bool value => "Bool " ++ (if value then "true" else "false")

/-- The kind of a type, with the name of a reference or query and the value of a literal. -/
def Ty.label : Ty → String
  | .ref _ name _ => "Ref " ++ QIdent.text name
  | .literal _ value => value.label
  | .object _ _ => "Object"
  | .function _ => "Function"
  | .constructor _ _ _ => "Constructor"
  | .tuple _ _ => "Tuple"
  | .query _ name => "Query " ++ QIdent.text name
  | .repeated _ _ => "Repeated"
  | .keyOf _ _ => "KeyOf"
  | .lookup _ _ _ => "Lookup"
  | .this => "This"
  | .union _ _ => "Union"
  | .intersect _ _ => "Intersect"
  | .conditional _ _ _ _ => "Conditional"
  | .extending _ _ _ => "Extends"
  | .infer _ => "Infer"
  | .is _ _ _ => "Is"

/-- The kind of an initialiser, with its name, value or operator. -/
def Expr.label : Expr → String
  | .ref name => "Ref " ++ QIdent.text name
  | .literal value => value.label
  | .call _ _ => "Call"
  | .unary op _ => "Unary " ++ op
  | .binary _ op _ => "Binary " ++ op
  | .cast _ _ => "Cast"
  | .arrayOf _ => "ArrayOf"

/-- The description of any node. -/
def Node.label : Node → String
  | .file _ => "File"
  | .decl d => d.label
  | .member m => m.label
  | .ty t => t.label
  | .sig _ => "Sig"
  | .param p => "Param " ++ p.name
  | .tparam p => "TypeParam " ++ p.name

end Ambient
