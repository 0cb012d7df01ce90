import Ambient.Json.Shape
import Ambient.Tree.Basic

/-!
# Trees as JSON

The exchange format of trees, written. Identities are not part of it.
-/

namespace Ambient

open Json (ofOption ofList tagged)

def QIdent.toJson (q : QIdent) : Json :=
  ofList .str q

def Marker.toJson : Marker → Json
  | .nameHint hint => tagged "NameHint" (.str hint)
  | .expandedCallables => .str "ExpandedCallables"
  | .expandedClass => .str "ExpandedClass"
  | .isTrivial => .str "IsTrivial"

def Comment.toJson : Comment → Json
  | .raw text => tagged "Raw" (.str text)
  | .marker m => tagged "Marker" m.toJson

def Comments.toJson (cs : Comments) : Json :=
  ofList Comment.toJson cs

def CodePath.toJson : CodePath → Json
  | .noPath => .str "NoPath"
  | .hasPath lib path =>
    tagged "HasPath" (.obj [("lib", .str lib), ("path", QIdent.toJson path)])

def JsLocation.toJson : JsLocation → Json
  | .zero => .str "Zero"
  | .global path => tagged "Global" (QIdent.toJson path)
  | .module name path =>
    tagged "Module" (.obj [("module", .str name), ("path", QIdent.toJson path)])

def Literal.toJson : Literal → Json
  | .num text => tagged "Num" (.str text)
  | .str text => tagged "Str" (.str text)
  | .bool value => tagged "Bool" (.bool value)

def Level.toJson : Level → Json
  | .default => .str "Default"
  | .ownClass => .str "Private"
  | .subclasses => .str "Protected"

def MethodKind.toJson : MethodKind → Json
  | .normal => .str "Normal"
  | .getter => .str "Getter"
  | .setter => .str "Setter"

def ReadonlyModifier.toJson : ReadonlyModifier → Json
  | .noop => .str "Noop"
  | .yes => .str "Yes"
  | .no => .str "No"

def OptionalModifier.toJson : OptionalModifier → Json
  | .noop => .str "Noop"
  | .optionalize => .str "Optionalize"
  | .deoptionalize => .str "Deoptionalize"

mutual

def Ty.toJson : Ty → Json
  | .ref i x ts =>
    tagged "Ref" (.obj [("comments", i.comments.toJson), ("name", QIdent.toJson x),
      ("targs", .arr (Ty.toJsonList ts))])
  | .literal _ v => tagged "Literal" v.toJson
  | .object i ms =>
    tagged "Object" (.obj [("comments", i.comments.toJson),
      ("members", .arr (Member.toJsonList ms))])
  | .function s => tagged "Function" s.toJson
  | .constructor _ a s =>
    tagged "Constructor" (.obj [("is_abstract", .bool a), ("signature", s.toJson)])
  | .tuple _ es => tagged "Tuple" (.obj [("elems", .arr (TupleElem.toJsonList es))])
  | .query _ x => tagged "Query" (QIdent.toJson x)
  | .repeated _ t => tagged "Repeated" t.toJson
  | .keyOf _ t => tagged "KeyOf" t.toJson
  | .lookup _ t k => tagged "Lookup" (.obj [("from", t.toJson), ("key", k.toJson)])
  | .this => .str "This"
  | .union _ ts => tagged "Union" (.obj [("types", .arr (Ty.toJsonList ts))])
  | .intersect _ ts => tagged "Intersect" (.obj [("types", .arr (Ty.toJsonList ts))])
  | .conditional _ p t e =>
    tagged "Conditional" (.obj [("pred", p.toJson), ("if_true", t.toJson),
      ("if_false", e.toJson)])
  | .extending _ t b => tagged "Extends" (.obj [("tpe", t.toJson), ("extends", b.toJson)])
  | .infer p => tagged "Infer" p.toJson
  | .is _ x t => tagged "Is" (.obj [("ident", .str x), ("tpe", t.toJson)])

def Ty.toJsonList : List Ty → List Json
  | [] => []
  | t :: ts => t.toJson :: Ty.toJsonList ts

def Ty.toJsonOption : Option Ty → Json
  | none => .null
  | some t => t.toJson

def TupleElem.toJsonList : List TupleElem → List Json
  | [] => []
  | ⟨l, t⟩ :: es =>
    .obj [("label", ofOption .str l), ("tpe", t.toJson)] :: TupleElem.toJsonList es

def TypeParam.toJson : TypeParam → Json
  | ⟨i, x, b, d⟩ =>
    .obj [("comments", i.comments.toJson), ("name", .str x), ("upper_bound", Ty.toJsonOption b),
      ("default", Ty.toJsonOption d)]

def TypeParam.toJsonList : List TypeParam → List Json
  | [] => []
  | p :: ps => p.toJson :: TypeParam.toJsonList ps

def Param.toJson : Param → Json
  | ⟨i, x, t⟩ =>
    .obj [("comments", i.comments.toJson), ("name", .str x), ("tpe", Ty.toJsonOption t)]

def Param.toJsonList : List Param → List Json
  | [] => []
  | p :: ps => p.toJson :: Param.toJsonList ps

def Signature.toJson : Signature → Json
  | ⟨i, ps, xs, r⟩ =>
    .obj [("comments", i.comments.toJson), ("tparams", .arr (TypeParam.toJsonList ps)),
      ("params", .arr (Param.toJsonList xs)), ("result_type", Ty.toJsonOption r)]

def Member.toJson : Member → Json
  | .call ⟨i, l, s⟩ =>
    tagged "Call" (.obj [("comments", i.comments.toJson), ("level", l.toJson),
      ("signature", s.toJson)])
  | .ctor ⟨i, l, s⟩ =>
    tagged "Ctor" (.obj [("comments", i.comments.toJson), ("level", l.toJson),
      ("signature", s.toJson)])
  | .function ⟨i, l, x, k, s, st, ro⟩ =>
    tagged "Function" (.obj [("comments", i.comments.toJson), ("level", l.toJson),
      ("name", .str x), ("method_type", k.toJson), ("signature", s.toJson),
      ("is_static", .bool st), ("is_readonly", .bool ro)])
  | .property ⟨i, l, x, t, e, st, ro⟩ =>
    tagged "Property" (.obj [("comments", i.comments.toJson), ("level", l.toJson),
      ("name", .str x), ("tpe", Ty.toJsonOption t), ("expr", Expr.toJsonOption e),
      ("is_static", .bool st), ("is_readonly", .bool ro)])
  | .index ⟨i, ro, l, x, v⟩ =>
    tagged "Index" (.obj [("comments", i.comments.toJson), ("is_readonly", .bool ro),
      ("level", l.toJson), ("indexing", x.toJson), ("value_type", Ty.toJsonOption v)])
  | .mapped ⟨i, l, ro, x, s, a, o, t⟩ =>
    tagged "Mapped" (.obj [("comments", i.comments.toJson), ("level", l.toJson),
      ("readonly", ro.toJson), ("key", .str x), ("from", s.toJson),
      ("as_name", Ty.toJsonOption a), ("optionalize", o.toJson), ("to", t.toJson)])

def Member.toJsonList : List Member → List Json
  | [] => []
  | m :: ms => m.toJson :: Member.toJsonList ms

def Indexing.toJson : Indexing → Json
  | .dict x t => tagged "Dict" (.obj [("name", .str x), ("tpe", t.toJson)])
  | .single x => tagged "Single" (QIdent.toJson x)

def Expr.toJson : Expr → Json
  | .ref x => tagged "Ref" (QIdent.toJson x)
  | .literal v => tagged "Literal" v.toJson
  | .call f ps =>
    tagged "Call" (.obj [("function", f.toJson), ("params", .arr (Expr.toJsonList ps))])
  | .unary o e => tagged "Unary" (.obj [("op", .str o), ("expr", e.toJson)])
  | .binary a o b =>
    tagged "Binary" (.obj [("left", a.toJson), ("op", .str o), ("right", b.toJson)])
  | .cast e t => tagged "Cast" (.obj [("expr", e.toJson), ("tpe", t.toJson)])
  | .arrayOf e => tagged "ArrayOf" e.toJson

def Expr.toJsonList : List Expr → List Json
  | [] => []
  | e :: es => e.toJson :: Expr.toJsonList es

def Expr.toJsonOption : Option Expr → Json
  | none => .null
  | some e => e.toJson

end

def EnumMember.toJson (e : EnumMember) : Json :=
  .obj [("comments", e.comments.toJson), ("name", .str e.name),
    ("expr", Expr.toJsonOption e.expr)]

def ClassDecl.toJson (c : ClassDecl) : Json :=
  .obj [("comments", c.info.comments.toJson), ("declared", .bool c.declared),
    ("is_abstract", .bool c.isAbstract), ("name", .str c.name),
    ("tparams", ofList TypeParam.toJson c.tparams), ("parent", ofOption Ty.toJson c.parent),
    ("implements", ofList Ty.toJson c.implements), ("members", ofList Member.toJson c.members),
    ("js_location", c.jsLocation.toJson), ("code_path", c.codePath.toJson)]

def InterfaceDecl.toJson (i : InterfaceDecl) : Json :=
  .obj [("comments", i.info.comments.toJson), ("declared", .bool i.declared),
    ("name", .str i.name), ("tparams", ofList TypeParam.toJson i.tparams),
    ("inheritance", ofList Ty.toJson i.inheritance),
    ("members", ofList Member.toJson i.members), ("code_path", i.codePath.toJson)]

def EnumDecl.toJson (e : EnumDecl) : Json :=
  .obj [("comments", e.info.comments.toJson), ("declared", .bool e.declared),
    ("is_const", .bool e.isConst), ("name", .str e.name),
    ("members", ofList EnumMember.toJson e.members), ("is_value", .bool e.isValue),
    ("exported_from", ofOption Ty.toJson e.exportedFrom),
    ("js_location", e.jsLocation.toJson), ("code_path", e.codePath.toJson)]

def VarDecl.toJson (v : VarDecl) : Json :=
  .obj [("comments", v.info.comments.toJson), ("declared", .bool v.declared),
    ("readonly", .bool v.readonly), ("name", .str v.name), ("tpe", ofOption Ty.toJson v.tpe),
    ("expr", ofOption Expr.toJson v.expr), ("js_location", v.jsLocation.toJson),
    ("code_path", v.codePath.toJson)]

def FunctionDecl.toJson (f : FunctionDecl) : Json :=
  .obj [("comments", f.info.comments.toJson), ("declared", .bool f.declared),
    ("name", .str f.name), ("signature", f.sig.toJson), ("js_location", f.jsLocation.toJson),
    ("code_path", f.codePath.toJson)]

def AliasDecl.toJson (a : AliasDecl) : Json :=
  .obj [("comments", a.info.comments.toJson), ("declared", .bool a.declared),
    ("name", .str a.name), ("tparams", ofList TypeParam.toJson a.tparams),
    ("alias", a.target.toJson), ("code_path", a.codePath.toJson)]

def Imported.toJson : Imported → Json
  | .name x => tagged "Ident" (.str x)
  | .destructured xs =>
    tagged "Destructured" (ofList (fun (x, a) => .arr [.str x, ofOption .str a]) xs)
  | .star a => tagged "Star" (ofOption .str a)

def Importee.toJson : Importee → Json
  | .required m => tagged "Required" (.str m)
  | .module m => tagged "From" (.str m)
  | .inner x => tagged "Local" (QIdent.toJson x)

def ImportDecl.toJson (i : ImportDecl) : Json :=
  .obj [("type_only", .bool i.typeOnly), ("imported", ofList Imported.toJson i.imported),
    ("from", i.source.toJson)]

def ExportKind.toJson : ExportKind → Json
  | .named => .str "Named"
  | .defaulted => .str "Defaulted"
  | .namespaced => .str "Namespaced"

mutual

def Decl.toJson : Decl → Json
  | .space h ms =>
    tagged "Namespace" (.obj [("comments", h.info.comments.toJson), ("declared", .bool h.declared),
      ("name", .str h.name), ("members", .arr (Decl.toJsonList ms)),
      ("code_path", h.codePath.toJson), ("js_location", h.jsLocation.toJson)])
  | .module h ms =>
    tagged "Module" (.obj [("comments", h.info.comments.toJson), ("declared", .bool h.declared),
      ("name", .str h.name), ("members", .arr (Decl.toJsonList ms)),
      ("code_path", h.codePath.toJson), ("js_location", h.jsLocation.toJson)])
  | .augmentation h ms =>
    tagged "AugmentedModule" (.obj [("comments", h.info.comments.toJson), ("name", .str h.name),
      ("members", .arr (Decl.toJsonList ms)), ("code_path", h.codePath.toJson),
      ("js_location", h.jsLocation.toJson)])
  | .global h ms =>
    tagged "Global" (.obj [("comments", h.info.comments.toJson), ("declared", .bool h.declared),
      ("members", .arr (Decl.toJsonList ms)), ("code_path", h.codePath.toJson)])
  | .cls c => tagged "Class" c.toJson
  | .iface i => tagged "Interface" i.toJson
  | .enum e => tagged "Enum" e.toJson
  | .var v => tagged "Var" v.toJson
  | .function f => tagged "Function" f.toJson
  | .typeAlias a => tagged "TypeAlias" a.toJson
  | .imports i => tagged "Import" i.toJson
  | .exports h e =>
    tagged "Export" (.obj [("comments", h.info.comments.toJson), ("type_only", .bool h.typeOnly),
      ("kind", h.kind.toJson), ("exportee", e.toJson)])
  | .exportAs e => tagged "ExportAsNamespace" (.obj [("ident", .str e.name)])

def Exportee.toJson : Exportee → Json
  | .names xs s =>
    tagged "Names" (.obj [
      ("names", ofList (fun (x, a) => .arr [QIdent.toJson x, ofOption .str a]) xs),
      ("from", ofOption .str s)])
  | .inline d => tagged "Tree" d.toJson
  | .star a s => tagged "Star" (.obj [("alias", ofOption .str a), ("from", .str s)])

def Decl.toJsonList : List Decl → List Json
  | [] => []
  | d :: ds => d.toJson :: Decl.toJsonList ds

end

def Directive.toJson : Directive → Json
  | .typesRef text => tagged "TypesRef" (.str text)
  | .pathRef text => tagged "PathRef" (.str text)
  | .libRef text => tagged "LibRef" (.str text)
  | .noStdLib => .str "NoStdLib"

def File.toJson (f : File) : Json :=
  .obj [("comments", f.info.comments.toJson), ("directives", ofList Directive.toJson f.directives),
    ("members", .arr (Decl.toJsonList f.members)), ("code_path", f.codePath.toJson)]

end Ambient
