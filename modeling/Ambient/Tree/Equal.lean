import Ambient.Tree.Basic

/-!
# Equality of trees

Two trees are equal (`==`) when they say the same: all parts agree except identities and comments.
-/

namespace Ambient

mutual

/-- Do two types say the same? -/
def Ty.same : Ty → Ty → Bool
  | .ref _ x ts, .ref _ y us => x == y && Ty.sameList ts us
  | .literal _ a, .literal _ b => a == b
  | .object _ ms, .object _ ns => Member.sameList ms ns
  | .function s, .function t => s.same t
  | .constructor _ a s, .constructor _ b t => a == b && s.same t
  | .tuple _ es, .tuple _ fs => TupleElem.sameList es fs
  | .query _ x, .query _ y => x == y
  | .repeated _ t, .repeated _ u => t.same u
  | .keyOf _ t, .keyOf _ u => t.same u
  | .lookup _ t k, .lookup _ u l => t.same u && k.same l
  | .this, .this => true
  | .union _ ts, .union _ us => Ty.sameList ts us
  | .intersect _ ts, .intersect _ us => Ty.sameList ts us
  | .conditional _ p t e, .conditional _ q u f => p.same q && t.same u && e.same f
  | .extending _ t b, .extending _ u c => t.same u && b.same c
  | .infer p, .infer q => p.same q
  | .is _ x t, .is _ y u => x == y && t.same u
  | _, _ => false

def Ty.sameList : List Ty → List Ty → Bool
  | [], [] => true
  | t :: ts, u :: us => t.same u && Ty.sameList ts us
  | _, _ => false

def Ty.sameOption : Option Ty → Option Ty → Bool
  | none, none => true
  | some t, some u => t.same u
  | _, _ => false

def TupleElem.sameList : List TupleElem → List TupleElem → Bool
  | [], [] => true
  | ⟨a, t⟩ :: es, ⟨b, u⟩ :: fs => a == b && t.same u && TupleElem.sameList es fs
  | _, _ => false

def TypeParam.same : TypeParam → TypeParam → Bool
  | ⟨_, x, b, d⟩, ⟨_, y, c, e⟩ => x == y && Ty.sameOption b c && Ty.sameOption d e

def TypeParam.sameList : List TypeParam → List TypeParam → Bool
  | [], [] => true
  | p :: ps, q :: qs => p.same q && TypeParam.sameList ps qs
  | _, _ => false

def Param.sameList : List Param → List Param → Bool
  | [], [] => true
  | ⟨_, x, t⟩ :: ps, ⟨_, y, u⟩ :: qs => x == y && Ty.sameOption t u && Param.sameList ps qs
  | _, _ => false

def Signature.same : Signature → Signature → Bool
  | ⟨_, ps, xs, r⟩, ⟨_, qs, ys, s⟩ =>
    TypeParam.sameList ps qs && Param.sameList xs ys && Ty.sameOption r s

def Member.same : Member → Member → Bool
  | .call ⟨_, l, s⟩, .call ⟨_, k, t⟩ => l == k && s.same t
  | .ctor ⟨_, l, s⟩, .ctor ⟨_, k, t⟩ => l == k && s.same t
  | .function ⟨_, l, x, m, s, st, ro⟩, .function ⟨_, k, y, n, t, su, rp⟩ =>
    l == k && x == y && m == n && s.same t && st == su && ro == rp
  | .property ⟨_, l, x, t, e, st, ro⟩, .property ⟨_, k, y, u, f, su, rp⟩ =>
    l == k && x == y && Ty.sameOption t u && Expr.sameOption e f && st == su && ro == rp
  | .index ⟨_, ro, l, .dict x t, v⟩, .index ⟨_, rp, k, .dict y u, w⟩ =>
    ro == rp && l == k && x == y && t.same u && Ty.sameOption v w
  | .index ⟨_, ro, l, .single x, v⟩, .index ⟨_, rp, k, .single y, w⟩ =>
    ro == rp && l == k && x == y && Ty.sameOption v w
  | .mapped ⟨_, l, ro, x, s, a, o, t⟩, .mapped ⟨_, k, rp, y, r, b, p, u⟩ =>
    l == k && ro == rp && x == y && s.same r && Ty.sameOption a b && o == p && t.same u
  | _, _ => false

def Member.sameList : List Member → List Member → Bool
  | [], [] => true
  | m :: ms, n :: ns => m.same n && Member.sameList ms ns
  | _, _ => false

def Expr.same : Expr → Expr → Bool
  | .ref x, .ref y => x == y
  | .literal a, .literal b => a == b
  | .call f ps, .call g qs => f.same g && Expr.sameList ps qs
  | .unary o e, .unary p f => o == p && e.same f
  | .binary a o b, .binary c p d => a.same c && o == p && b.same d
  | .cast e t, .cast f u => e.same f && t.same u
  | .arrayOf e, .arrayOf f => e.same f
  | _, _ => false

def Expr.sameList : List Expr → List Expr → Bool
  | [], [] => true
  | e :: es, f :: fs => e.same f && Expr.sameList es fs
  | _, _ => false

def Expr.sameOption : Option Expr → Option Expr → Bool
  | none, none => true
  | some e, some f => e.same f
  | _, _ => false

end

instance : BEq Ty := ⟨Ty.same⟩
instance : BEq TypeParam := ⟨TypeParam.same⟩
instance : BEq Signature := ⟨Signature.same⟩
instance : BEq Member := ⟨Member.same⟩
instance : BEq Expr := ⟨Expr.same⟩

def EnumMember.same (a b : EnumMember) : Bool :=
  a.name == b.name && a.expr == b.expr

instance : BEq EnumMember := ⟨EnumMember.same⟩

def ClassDecl.same (a b : ClassDecl) : Bool :=
  a.declared == b.declared && a.isAbstract == b.isAbstract && a.name == b.name &&
    a.tparams == b.tparams && a.parent == b.parent && a.implements == b.implements &&
    a.members == b.members && a.jsLocation == b.jsLocation && a.codePath == b.codePath

def InterfaceDecl.same (a b : InterfaceDecl) : Bool :=
  a.declared == b.declared && a.name == b.name && a.tparams == b.tparams &&
    a.inheritance == b.inheritance && a.members == b.members && a.codePath == b.codePath

def EnumDecl.same (a b : EnumDecl) : Bool :=
  a.declared == b.declared && a.isConst == b.isConst && a.name == b.name &&
    a.members == b.members && a.isValue == b.isValue && a.exportedFrom == b.exportedFrom &&
    a.jsLocation == b.jsLocation && a.codePath == b.codePath

def VarDecl.same (a b : VarDecl) : Bool :=
  a.declared == b.declared && a.readonly == b.readonly && a.name == b.name && a.tpe == b.tpe &&
    a.expr == b.expr && a.jsLocation == b.jsLocation && a.codePath == b.codePath

def FunctionDecl.same (a b : FunctionDecl) : Bool :=
  a.declared == b.declared && a.name == b.name && a.sig == b.sig &&
    a.jsLocation == b.jsLocation && a.codePath == b.codePath

def AliasDecl.same (a b : AliasDecl) : Bool :=
  a.declared == b.declared && a.name == b.name && a.tparams == b.tparams &&
    a.target == b.target && a.codePath == b.codePath

def ImportDecl.same (a b : ImportDecl) : Bool :=
  a.typeOnly == b.typeOnly && a.imported == b.imported && a.source == b.source

def SpaceHead.same (a b : SpaceHead) : Bool :=
  a.declared == b.declared && a.name == b.name && a.codePath == b.codePath &&
    a.jsLocation == b.jsLocation

def AugmentHead.same (a b : AugmentHead) : Bool :=
  a.name == b.name && a.codePath == b.codePath && a.jsLocation == b.jsLocation

def GlobalHead.same (a b : GlobalHead) : Bool :=
  a.declared == b.declared && a.codePath == b.codePath

def ExportHead.same (a b : ExportHead) : Bool :=
  a.typeOnly == b.typeOnly && a.kind == b.kind

mutual

def Decl.same : Decl → Decl → Bool
  | .space h ms, .space g ns => h.same g && Decl.sameList ms ns
  | .module h ms, .module g ns => h.same g && Decl.sameList ms ns
  | .augmentation h ms, .augmentation g ns => h.same g && Decl.sameList ms ns
  | .global h ms, .global g ns => h.same g && Decl.sameList ms ns
  | .cls a, .cls b => a.same b
  | .iface a, .iface b => a.same b
  | .enum a, .enum b => a.same b
  | .var a, .var b => a.same b
  | .function a, .function b => a.same b
  | .typeAlias a, .typeAlias b => a.same b
  | .imports a, .imports b => a.same b
  | .exports h a, .exports g b => h.same g && a.same b
  | .exportAs a, .exportAs b => a.name == b.name
  | _, _ => false

/-- Do two exports make the same visible? -/
def Exportee.same : Exportee → Exportee → Bool
  | .names xs s, .names ys t => xs == ys && s == t
  | .inline d, .inline e => d.same e
  | .star a s, .star b t => a == b && s == t
  | _, _ => false

def Decl.sameList : List Decl → List Decl → Bool
  | [], [] => true
  | d :: ds, e :: es => d.same e && Decl.sameList ds es
  | _, _ => false

end

instance : BEq Decl := ⟨Decl.same⟩

def File.same (a b : File) : Bool :=
  a.directives == b.directives && a.members == b.members && a.codePath == b.codePath

instance : BEq File := ⟨File.same⟩

end Ambient
