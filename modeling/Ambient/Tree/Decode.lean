import Ambient.Json.Shape
import Ambient.Tree.Basic

/-!
# Trees from JSON

The exchange format of trees, read. The readers of nested parts take a bound on the nesting, which
`Json.depth` supplies; the nodes they make are not numbered.
-/

namespace Ambient

open Json

def QIdent.ofJson? : Json → Option QIdent :=
  Json.list? Json.str?

def Marker.ofJson? (j : Json) : Option Marker :=
  match j.variant? with
  | some ("NameHint", some c) => c.str?.map .nameHint
  | _ =>
    j.unit? [("ExpandedCallables", .expandedCallables), ("ExpandedClass", .expandedClass),
      ("IsTrivial", .isTrivial)]

def Comment.ofJson? (j : Json) : Option Comment :=
  match j.variant? with
  | some ("Raw", some c) => c.str?.map .raw
  | some ("Marker", some c) => (Marker.ofJson? c).map .marker
  | _ => none

def Comments.ofJson? : Json → Option Comments :=
  Json.list? Comment.ofJson?

/-- Reads the comments of a node that has no number yet. -/
def NodeInfo.ofJson? (j : Json) : Option NodeInfo :=
  (Comments.ofJson? j).map fun cs => { comments := cs }

def CodePath.ofJson? (j : Json) : Option CodePath :=
  match j.variant? with
  | some ("HasPath", some c) => do
    let [lib, path] ← c.record? ["lib", "path"] | none
    return .hasPath (← lib.str?) (← QIdent.ofJson? path)
  | _ => j.unit? [("NoPath", .noPath)]

def JsLocation.ofJson? (j : Json) : Option JsLocation :=
  match j.variant? with
  | some ("Global", some c) => (QIdent.ofJson? c).map .global
  | some ("Module", some c) => do
    let [name, path] ← c.record? ["module", "path"] | none
    return .module (← name.str?) (← QIdent.ofJson? path)
  | _ => j.unit? [("Zero", .zero)]

def Literal.ofJson? (j : Json) : Option Literal :=
  match j.variant? with
  | some ("Num", some c) => c.str?.map .num
  | some ("Str", some c) => c.str?.map .str
  | some ("Bool", some c) => c.bool?.map .bool
  | _ => none

def Level.ofJson? : Json → Option Level :=
  Json.unit? [("Default", .default), ("Private", .ownClass), ("Protected", .subclasses)]

def MethodKind.ofJson? : Json → Option MethodKind :=
  Json.unit? [("Normal", .normal), ("Getter", .getter), ("Setter", .setter)]

def ReadonlyModifier.ofJson? : Json → Option ReadonlyModifier :=
  Json.unit? [("Noop", .noop), ("Yes", .yes), ("No", .no)]

def OptionalModifier.ofJson? : Json → Option OptionalModifier :=
  Json.unit? [("Noop", .noop), ("Optionalize", .optionalize), ("Deoptionalize", .deoptionalize)]

mutual

/-- Reads a type that nests to at most the given depth. -/
def Ty.decode : Nat → Json → Option Ty
  | 0, _ => none
  | n + 1, j =>
    match j.variant? with
    | some ("Ref", some c) => do
      let [cs, x, ts] ← c.record? ["comments", "name", "targs"] | none
      return .ref (← NodeInfo.ofJson? cs) (← QIdent.ofJson? x) (← ts.list? (Ty.decode n))
    | some ("Literal", some c) => (Literal.ofJson? c).map (.literal 0)
    | some ("Object", some c) => do
      let [cs, ms] ← c.record? ["comments", "members"] | none
      return .object (← NodeInfo.ofJson? cs) (← ms.list? (Member.decode n))
    | some ("Function", some c) => (Signature.decode n c).map .function
    | some ("Constructor", some c) => do
      let [a, s] ← c.record? ["is_abstract", "signature"] | none
      return .constructor 0 (← a.bool?) (← Signature.decode n s)
    | some ("Tuple", some c) => do
      let [es] ← c.record? ["elems"] | none
      return .tuple 0 (← es.list? (TupleElem.decode n))
    | some ("Query", some c) => (QIdent.ofJson? c).map (.query 0)
    | some ("Repeated", some c) => (Ty.decode n c).map (.repeated 0)
    | some ("KeyOf", some c) => (Ty.decode n c).map (.keyOf 0)
    | some ("Lookup", some c) => do
      let [t, k] ← c.record? ["from", "key"] | none
      return .lookup 0 (← Ty.decode n t) (← Ty.decode n k)
    | some ("Union", some c) => do
      let [ts] ← c.record? ["types"] | none
      return .union 0 (← ts.list? (Ty.decode n))
    | some ("Intersect", some c) => do
      let [ts] ← c.record? ["types"] | none
      return .intersect 0 (← ts.list? (Ty.decode n))
    | some ("Conditional", some c) => do
      let [p, t, e] ← c.record? ["pred", "if_true", "if_false"] | none
      return .conditional 0 (← Ty.decode n p) (← Ty.decode n t) (← Ty.decode n e)
    | some ("Extends", some c) => do
      let [t, b] ← c.record? ["tpe", "extends"] | none
      return .extending 0 (← Ty.decode n t) (← Ty.decode n b)
    | some ("Infer", some c) => (TypeParam.decode n c).map .infer
    | some ("Is", some c) => do
      let [x, t] ← c.record? ["ident", "tpe"] | none
      return .is 0 (← x.str?) (← Ty.decode n t)
    | _ => j.unit? [("This", .this)]

def TupleElem.decode : Nat → Json → Option TupleElem
  | 0, _ => none
  | n + 1, j => do
    let [l, t] ← j.record? ["label", "tpe"] | none
    return ⟨← l.option? str?, ← Ty.decode n t⟩

def TypeParam.decode : Nat → Json → Option TypeParam
  | 0, _ => none
  | n + 1, j => do
    let [cs, x, b, d] ← j.record? ["comments", "name", "upper_bound", "default"] | none
    return ⟨← NodeInfo.ofJson? cs, ← x.str?, ← b.option? (Ty.decode n), ← d.option? (Ty.decode n)⟩

def Param.decode : Nat → Json → Option Param
  | 0, _ => none
  | n + 1, j => do
    let [cs, x, t] ← j.record? ["comments", "name", "tpe"] | none
    return ⟨← NodeInfo.ofJson? cs, ← x.str?, ← t.option? (Ty.decode n)⟩

def Signature.decode : Nat → Json → Option Signature
  | 0, _ => none
  | n + 1, j => do
    let [cs, ps, xs, r] ← j.record? ["comments", "tparams", "params", "result_type"] | none
    return ⟨← NodeInfo.ofJson? cs, ← ps.list? (TypeParam.decode n), ← xs.list? (Param.decode n),
      ← r.option? (Ty.decode n)⟩

def CallMember.decode : Nat → Json → Option CallMember
  | 0, _ => none
  | n + 1, j => do
    let [cs, l, s] ← j.record? ["comments", "level", "signature"] | none
    return ⟨← NodeInfo.ofJson? cs, ← Level.ofJson? l, ← Signature.decode n s⟩

def Member.decode : Nat → Json → Option Member
  | 0, _ => none
  | n + 1, j =>
    match j.variant? with
    | some ("Call", some c) => (CallMember.decode n c).map .call
    | some ("Ctor", some c) => (CallMember.decode n c).map .ctor
    | some ("Function", some c) => do
      let [cs, l, x, k, s, st, ro] ← c.record?
        ["comments", "level", "name", "method_type", "signature", "is_static", "is_readonly"]
        | none
      return .function ⟨← NodeInfo.ofJson? cs, ← Level.ofJson? l, ← x.str?, ← MethodKind.ofJson? k,
        ← Signature.decode n s, ← st.bool?, ← ro.bool?⟩
    | some ("Property", some c) => do
      let [cs, l, x, t, e, st, ro] ← c.record?
        ["comments", "level", "name", "tpe", "expr", "is_static", "is_readonly"] | none
      return .property ⟨← NodeInfo.ofJson? cs, ← Level.ofJson? l, ← x.str?,
        ← t.option? (Ty.decode n), ← e.option? (Expr.decode n), ← st.bool?, ← ro.bool?⟩
    | some ("Index", some c) => do
      let [cs, ro, l, x, v] ← c.record?
        ["comments", "is_readonly", "level", "indexing", "value_type"] | none
      return .index ⟨← NodeInfo.ofJson? cs, ← ro.bool?, ← Level.ofJson? l, ← Indexing.decode n x,
        ← v.option? (Ty.decode n)⟩
    | some ("Mapped", some c) => do
      let [cs, l, ro, x, s, a, o, t] ← c.record?
        ["comments", "level", "readonly", "key", "from", "as_name", "optionalize", "to"] | none
      return .mapped ⟨← NodeInfo.ofJson? cs, ← Level.ofJson? l, ← ReadonlyModifier.ofJson? ro,
        ← x.str?, ← Ty.decode n s, ← a.option? (Ty.decode n), ← OptionalModifier.ofJson? o,
        ← Ty.decode n t⟩
    | _ => none

def Indexing.decode : Nat → Json → Option Indexing
  | 0, _ => none
  | n + 1, j =>
    match j.variant? with
    | some ("Dict", some c) => do
      let [x, t] ← c.record? ["name", "tpe"] | none
      return .dict (← x.str?) (← Ty.decode n t)
    | some ("Single", some c) => (QIdent.ofJson? c).map .single
    | _ => none

def Expr.decode : Nat → Json → Option Expr
  | 0, _ => none
  | n + 1, j =>
    match j.variant? with
    | some ("Ref", some c) => (QIdent.ofJson? c).map .ref
    | some ("Literal", some c) => (Literal.ofJson? c).map .literal
    | some ("Call", some c) => do
      let [f, ps] ← c.record? ["function", "params"] | none
      return .call (← Expr.decode n f) (← ps.list? (Expr.decode n))
    | some ("Unary", some c) => do
      let [o, e] ← c.record? ["op", "expr"] | none
      return .unary (← o.str?) (← Expr.decode n e)
    | some ("Binary", some c) => do
      let [a, o, b] ← c.record? ["left", "op", "right"] | none
      return .binary (← Expr.decode n a) (← o.str?) (← Expr.decode n b)
    | some ("Cast", some c) => do
      let [e, t] ← c.record? ["expr", "tpe"] | none
      return .cast (← Expr.decode n e) (← Ty.decode n t)
    | some ("ArrayOf", some c) => (Expr.decode n c).map .arrayOf
    | _ => none

end

def Ty.ofJson? (j : Json) : Option Ty := Ty.decode (j.depth + 1) j

def TypeParam.ofJson? (j : Json) : Option TypeParam := TypeParam.decode (j.depth + 1) j

def Param.ofJson? (j : Json) : Option Param := Param.decode (j.depth + 1) j

def Signature.ofJson? (j : Json) : Option Signature := Signature.decode (j.depth + 1) j

def Member.ofJson? (j : Json) : Option Member := Member.decode (j.depth + 1) j

def Expr.ofJson? (j : Json) : Option Expr := Expr.decode (j.depth + 1) j

def EnumMember.ofJson? (j : Json) : Option EnumMember := do
  let [cs, x, e] ← j.record? ["comments", "name", "expr"] | none
  return ⟨← Comments.ofJson? cs, ← x.str?, ← e.option? Expr.ofJson?⟩

def ClassDecl.ofJson? (j : Json) : Option ClassDecl := do
  let [cs, d, a, x, ps, p, is, ms, l, c] ← j.record?
    ["comments", "declared", "is_abstract", "name", "tparams", "parent", "implements", "members",
     "js_location", "code_path"] | none
  return ⟨← NodeInfo.ofJson? cs, ← d.bool?, ← a.bool?, ← x.str?, ← ps.list? TypeParam.ofJson?,
    ← p.option? Ty.ofJson?, ← is.list? Ty.ofJson?, ← ms.list? Member.ofJson?,
    ← JsLocation.ofJson? l, ← CodePath.ofJson? c⟩

def InterfaceDecl.ofJson? (j : Json) : Option InterfaceDecl := do
  let [cs, d, x, ps, is, ms, c] ← j.record?
    ["comments", "declared", "name", "tparams", "inheritance", "members", "code_path"] | none
  return ⟨← NodeInfo.ofJson? cs, ← d.bool?, ← x.str?, ← ps.list? TypeParam.ofJson?,
    ← is.list? Ty.ofJson?, ← ms.list? Member.ofJson?, ← CodePath.ofJson? c⟩

def EnumDecl.ofJson? (j : Json) : Option EnumDecl := do
  let [cs, d, k, x, ms, v, e, l, c] ← j.record?
    ["comments", "declared", "is_const", "name", "members", "is_value", "exported_from",
     "js_location", "code_path"] | none
  return ⟨← NodeInfo.ofJson? cs, ← d.bool?, ← k.bool?, ← x.str?, ← ms.list? EnumMember.ofJson?,
    ← v.bool?, ← e.option? Ty.ofJson?, ← JsLocation.ofJson? l, ← CodePath.ofJson? c⟩

def VarDecl.ofJson? (j : Json) : Option VarDecl := do
  let [cs, d, ro, x, t, e, l, c] ← j.record?
    ["comments", "declared", "readonly", "name", "tpe", "expr", "js_location", "code_path"] | none
  return ⟨← NodeInfo.ofJson? cs, ← d.bool?, ← ro.bool?, ← x.str?, ← t.option? Ty.ofJson?,
    ← e.option? Expr.ofJson?, ← JsLocation.ofJson? l, ← CodePath.ofJson? c⟩

def FunctionDecl.ofJson? (j : Json) : Option FunctionDecl := do
  let [cs, d, x, s, l, c] ← j.record?
    ["comments", "declared", "name", "signature", "js_location", "code_path"] | none
  return ⟨← NodeInfo.ofJson? cs, ← d.bool?, ← x.str?, ← Signature.ofJson? s,
    ← JsLocation.ofJson? l, ← CodePath.ofJson? c⟩

def AliasDecl.ofJson? (j : Json) : Option AliasDecl := do
  let [cs, d, x, ps, t, c] ← j.record?
    ["comments", "declared", "name", "tparams", "alias", "code_path"] | none
  return ⟨← NodeInfo.ofJson? cs, ← d.bool?, ← x.str?, ← ps.list? TypeParam.ofJson?,
    ← Ty.ofJson? t, ← CodePath.ofJson? c⟩

def Imported.ofJson? (j : Json) : Option Imported :=
  match j.variant? with
  | some ("Ident", some c) => c.str?.map .name
  | some ("Destructured", some c) => (c.list? (pair? str? (option? str?))).map .destructured
  | some ("Star", some c) => (c.option? str?).map .star
  | _ => none

def Importee.ofJson? (j : Json) : Option Importee :=
  match j.variant? with
  | some ("Required", some c) => c.str?.map .required
  | some ("From", some c) => c.str?.map .module
  | some ("Local", some c) => (QIdent.ofJson? c).map .inner
  | _ => none

def ImportDecl.ofJson? (j : Json) : Option ImportDecl := do
  let [t, xs, s] ← j.record? ["type_only", "imported", "from"] | none
  return ⟨0, ← t.bool?, ← xs.list? Imported.ofJson?, ← Importee.ofJson? s⟩

def ExportKind.ofJson? : Json → Option ExportKind :=
  Json.unit? [("Named", .named), ("Defaulted", .defaulted), ("Namespaced", .namespaced)]

mutual

/-- Reads a declaration that nests to at most the given depth. -/
def Decl.decode : Nat → Json → Option Decl
  | 0, _ => none
  | n + 1, j =>
    match j.variant? with
    | some ("Namespace", some c) => do
      let [cs, d, x, ms, p, l] ← c.record?
        ["comments", "declared", "name", "members", "code_path", "js_location"] | none
      return .space ⟨← NodeInfo.ofJson? cs, ← d.bool?, ← x.str?, ← CodePath.ofJson? p,
        ← JsLocation.ofJson? l⟩ (← ms.list? (Decl.decode n))
    | some ("Module", some c) => do
      let [cs, d, x, ms, p, l] ← c.record?
        ["comments", "declared", "name", "members", "code_path", "js_location"] | none
      return .module ⟨← NodeInfo.ofJson? cs, ← d.bool?, ← x.str?, ← CodePath.ofJson? p,
        ← JsLocation.ofJson? l⟩ (← ms.list? (Decl.decode n))
    | some ("AugmentedModule", some c) => do
      let [cs, x, ms, p, l] ← c.record?
        ["comments", "name", "members", "code_path", "js_location"] | none
      return .augmentation ⟨← NodeInfo.ofJson? cs, ← x.str?, ← CodePath.ofJson? p,
        ← JsLocation.ofJson? l⟩ (← ms.list? (Decl.decode n))
    | some ("Global", some c) => do
      let [cs, d, ms, p] ← c.record? ["comments", "declared", "members", "code_path"] | none
      return .global ⟨← NodeInfo.ofJson? cs, ← d.bool?, ← CodePath.ofJson? p⟩
        (← ms.list? (Decl.decode n))
    | some ("Class", some c) => (ClassDecl.ofJson? c).map .cls
    | some ("Interface", some c) => (InterfaceDecl.ofJson? c).map .iface
    | some ("Enum", some c) => (EnumDecl.ofJson? c).map .enum
    | some ("Var", some c) => (VarDecl.ofJson? c).map .var
    | some ("Function", some c) => (FunctionDecl.ofJson? c).map .function
    | some ("TypeAlias", some c) => (AliasDecl.ofJson? c).map .typeAlias
    | some ("Import", some c) => (ImportDecl.ofJson? c).map .imports
    | some ("Export", some c) => do
      let [cs, t, k, e] ← c.record? ["comments", "type_only", "kind", "exportee"] | none
      return .exports ⟨← NodeInfo.ofJson? cs, ← t.bool?, ← ExportKind.ofJson? k⟩
        (← Exportee.decode n e)
    | some ("ExportAsNamespace", some c) => do
      let [x] ← c.record? ["ident"] | none
      return .exportAs ⟨0, ← x.str?⟩
    | _ => none

def Exportee.decode : Nat → Json → Option Exportee
  | 0, _ => none
  | n + 1, j =>
    match j.variant? with
    | some ("Names", some c) => do
      let [xs, s] ← c.record? ["names", "from"] | none
      return .names (← xs.list? (pair? QIdent.ofJson? (option? str?))) (← s.option? str?)
    | some ("Tree", some c) => (Decl.decode n c).map .inline
    | some ("Star", some c) => do
      let [a, s] ← c.record? ["alias", "from"] | none
      return .star (← a.option? str?) (← s.str?)
    | _ => none

end

def Decl.ofJson? (j : Json) : Option Decl := Decl.decode (j.depth + 1) j

def Directive.ofJson? (j : Json) : Option Directive :=
  match j.variant? with
  | some ("TypesRef", some c) => c.str?.map .typesRef
  | some ("PathRef", some c) => c.str?.map .pathRef
  | some ("LibRef", some c) => c.str?.map .libRef
  | _ => j.unit? [("NoStdLib", .noStdLib)]

def File.ofJson? (j : Json) : Option File := do
  let [cs, ds, ms, p] ← j.record? ["comments", "directives", "members", "code_path"] | none
  return ⟨← NodeInfo.ofJson? cs, ← ds.list? Directive.ofJson?, ← ms.list? Decl.ofJson?,
    ← CodePath.ofJson? p⟩

end Ambient
