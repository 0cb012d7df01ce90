import Ambient.Assoc
import Ambient.Naming
import Ambient.Tree.Mentions
import Mathlib.Data.List.Forall2

/-!
# Twins

Two trees are twins when they say the same and differ at most in the identities and the comments of
their nodes. A `Leeway` says which identities and which comments may stand in each other's place. What
only looks at what trees say does not tell twins apart: it answers alike, or answers with twins.

* `Leeway.Fair`: what a leeway has to grant for the computations on trees to keep twins twins. The
  identities of one tree correspond one to one to those of the other.
* `Ty.Twin` and its like for each kind of node.
* The lemmas about single nodes say what twins have in common: names, places, members that are twins.
-/

namespace List.Forall₂

variable {α β γ δ : Type} {R : α → β → Prop} {S : γ → δ → Prop} {as : List α} {bs : List β}

theorem map_eq {f : α → γ} {g : β → γ} (h : List.Forall₂ R as bs) (hfg : ∀ {a b}, R a b → f a = g b) :
    as.map f = bs.map g := by
  induction h with
  | nil => rfl
  | cons hab _ ih => rw [List.map_cons, List.map_cons, hfg hab, ih]

theorem filterMap_eq {f : α → Option γ} {g : β → Option γ} (h : List.Forall₂ R as bs)
    (hfg : ∀ {a b}, R a b → f a = g b) : as.filterMap f = bs.filterMap g := by
  induction h with
  | nil => rfl
  | cons hab _ ih => rw [List.filterMap_cons, List.filterMap_cons, hfg hab, ih]

theorem any_eq {p : α → Bool} {q : β → Bool} (h : List.Forall₂ R as bs)
    (hpq : ∀ {a b}, R a b → p a = q b) : as.any p = bs.any q := by
  induction h with
  | nil => rfl
  | cons hab _ ih => rw [List.any_cons, List.any_cons, hpq hab, ih]

theorem all_eq {p : α → Bool} {q : β → Bool} (h : List.Forall₂ R as bs)
    (hpq : ∀ {a b}, R a b → p a = q b) : as.all p = bs.all q := by
  induction h with
  | nil => rfl
  | cons hab _ ih => rw [List.all_cons, List.all_cons, hpq hab, ih]

theorem isEmpty_eq (h : List.Forall₂ R as bs) : as.isEmpty = bs.isEmpty := by
  cases h <;> rfl

theorem filter {p : α → Bool} {q : β → Bool} (h : List.Forall₂ R as bs)
    (hpq : ∀ {a b}, R a b → p a = q b) : List.Forall₂ R (as.filter p) (bs.filter q) :=
  List.rel_filter (fun _ _ hab => iff_of_eq (congrArg (· = true) (hpq hab))) h

theorem foldl {f : γ → α → γ} {g : δ → β → δ} (h : List.Forall₂ R as bs)
    (hfg : ∀ {c d a b}, S c d → R a b → S (f c a) (g d b)) {c : γ} {d : δ} (hcd : S c d) :
    S (as.foldl f c) (bs.foldl g d) :=
  List.rel_foldl (R := R) (P := S) (fun _ _ hcd _ _ hab => hfg hcd hab) hcd h

theorem flatMap {f : α → List γ} {g : β → List δ} (h : List.Forall₂ R as bs)
    (hfg : ∀ {a b}, R a b → List.Forall₂ S (f a) (g b)) :
    List.Forall₂ S (as.flatMap f) (bs.flatMap g) :=
  List.rel_flatMap h fun _ _ hab => hfg hab

theorem append {cs : List α} {ds : List β} (h : List.Forall₂ R as bs) (h' : List.Forall₂ R cs ds) :
    List.Forall₂ R (as ++ cs) (bs ++ ds) :=
  List.rel_append h h'

theorem find? {p : α → Bool} {q : β → Bool} (h : List.Forall₂ R as bs)
    (hpq : ∀ {a b}, R a b → p a = q b) : Option.Rel R (as.find? p) (bs.find? q) := by
  induction h with
  | nil => exact .none
  | @cons a b as bs hab _ ih =>
    rw [List.find?_cons, List.find?_cons, hpq hab]
    cases q b with
    | true => exact .some hab
    | false => exact ih

theorem findSome? {f : α → Option γ} {g : β → Option δ} (h : List.Forall₂ R as bs)
    (hfg : ∀ {a b}, R a b → Option.Rel S (f a) (g b)) :
    Option.Rel S (as.findSome? f) (bs.findSome? g) := by
  induction h with
  | nil => exact .none
  | @cons a b as bs hab _ ih =>
    rw [List.findSome?_cons, List.findSome?_cons]
    have hhead := hfg hab
    generalize f a = x at hhead ⊢
    generalize g b = y at hhead ⊢
    cases hhead with
    | none => exact ih
    | some hcd => exact .some hcd

theorem getLast? (h : List.Forall₂ R as bs) : Option.Rel R as.getLast? bs.getLast? := by
  have hrev := List.rel_reverse h
  rw [List.getLast?_eq_head?_reverse, List.getLast?_eq_head?_reverse]
  generalize as.reverse = xs at hrev ⊢
  generalize bs.reverse = ys at hrev ⊢
  cases hrev with
  | nil => exact .none
  | cons hab _ => exact .some hab

end List.Forall₂

namespace Option.Rel

variable {α β γ δ : Type} {R : α → β → Prop} {S : γ → δ → Prop} {a : Option α} {b : Option β}

theorem self {R : α → α → Prop} {a : Option α} (h : ∀ b ∈ a, R b b) : Option.Rel R a a := by
  cases a with
  | none => exact .none
  | some a => exact .some (h a rfl)

theorem isSome_eq (h : Option.Rel R a b) : a.isSome = b.isSome := by
  cases h <;> rfl

theorem map {f : α → γ} {g : β → δ} (h : Option.Rel R a b) (hfg : ∀ {a b}, R a b → S (f a) (g b)) :
    Option.Rel S (a.map f) (b.map g) := by
  cases h with
  | none => exact .none
  | some hab => exact .some (hfg hab)

theorem any_eq {p : α → Bool} {q : β → Bool} (h : Option.Rel R a b)
    (hpq : ∀ {a b}, R a b → p a = q b) : a.any p = b.any q := by
  cases h with
  | none => rfl
  | some hab => exact hpq hab

theorem bind {f : α → Option γ} {g : β → Option δ} (h : Option.Rel R a b)
    (hfg : ∀ {a b}, R a b → Option.Rel S (f a) (g b)) : Option.Rel S (a.bind f) (b.bind g) := by
  cases h with
  | none => exact .none
  | some hab => exact hfg hab

theorem getD {c : α} {d : β} (h : Option.Rel R a b) (hcd : R c d) : R (a.getD c) (b.getD d) := by
  cases h with
  | none => exact hcd
  | some hab => exact hab

theorem toList (h : Option.Rel R a b) : List.Forall₂ R a.toList b.toList := by
  cases h with
  | none => exact .nil
  | some hab => exact .cons hab .nil

end Option.Rel

namespace Ambient

/-- How far twins may differ: which identities and which comments correspond to each other. The
comments of an object type or of the rule of a mapped type may hold the name for an interface, so there
is a rule of its own for them. -/
structure Leeway where
  id : NodeId → NodeId → Prop
  comments : Comments → Comments → Prop
  hints : Comments → Comments → Prop

/-- Everything may stand in its own place. -/
structure Leeway.Reflexive (L : Leeway) : Prop where
  id : ∀ i, L.id i i
  comments : ∀ cs, L.comments cs cs
  hints : ∀ cs, L.hints cs cs

/-- Comments that correspond hold the same texts of their authors. -/
def Leeway.KeepsTexts (L : Leeway) : Prop :=
  ∀ a b, L.comments a b → a.rawTexts = b.rawTexts

/-- The leeway that computations on trees can live with. New nodes have the identity zero and no
comments but those of other nodes and markers. -/
structure Leeway.Fair (L : Leeway) : Prop where
  id_zero : L.id 0 0
  id_iff : ∀ {i j k l}, L.id i j → L.id k l → (i = k ↔ j = l)
  hints_nil : L.hints [] []
  hints_append : ∀ {a b c d}, L.hints a b → L.hints c d → L.hints (a ++ c) (b ++ d)
  nameHint : ∀ {a b}, L.hints a b → a.nameHint? = b.nameHint?
  comments_of_hints : ∀ {a b}, L.hints a b → L.comments a b
  comments_append : ∀ {a b c d}, L.comments a b → L.comments c d → L.comments (a ++ c) (b ++ d)
  withMarker : ∀ {a b} m, L.comments a b → L.comments (a.withMarker m) (b.withMarker m)
  markersOnly : ∀ {a b}, L.comments a b → L.comments a.markersOnly b.markersOnly
  /-- Comments that stand in where there are none. -/
  orElse : ∀ {a b c d}, L.comments a b → L.comments c d →
    L.comments (if a.isEmpty then c else a) (if b.isEmpty then d else b)
  /-- Either the author's texts correspond, or comments do not matter at all. -/
  texts : L.KeepsTexts ∨ ∀ a b, L.comments a b

theorem Leeway.Fair.comments_nil {L : Leeway} (hL : L.Fair) : L.comments [] [] :=
  hL.comments_of_hints hL.hints_nil

/-! ## Maps -/

/-- Both components are related. -/
structure Both {α β γ δ : Type} (R : α → γ → Prop) (S : β → δ → Prop) (x : α × β) (y : γ × δ) :
    Prop where
  fst : R x.1 y.1
  snd : S x.2 y.2

section
variable {κ κ' α β : Type} [BEq κ] [BEq κ'] {K : κ → κ' → Prop} {V : α → β → Prop}
  (hK : ∀ {k l k' l'}, K k l → K k' l' → (k == k') = (l == l')) {xs : List (κ × α)} {ys : List (κ' × β)}
include hK

theorem lookup_twin (h : List.Forall₂ (Both K V) xs ys) {k : κ} {l : κ'} (hk : K k l) :
    Option.Rel V (xs.lookup k) (ys.lookup l) := by
  induction h with
  | nil => exact .none
  | @cons x y _ _ hxy _ ih =>
    obtain ⟨k', a⟩ := x
    obtain ⟨l', b⟩ := y
    rw [List.lookup_cons, List.lookup_cons, hK hk hxy.fst]
    cases l == l' with
    | true => exact .some hxy.snd
    | false => exact ih

theorem put_twin (h : List.Forall₂ (Both K V) xs ys) {k : κ} {l : κ'} (hk : K k l) {a : α} {b : β}
    (hab : V a b) : List.Forall₂ (Both K V) (put k a xs) (put l b ys) := by
  induction h with
  | nil => exact .cons ⟨hk, hab⟩ .nil
  | @cons x y _ _ hxy hrest ih =>
    obtain ⟨k', a'⟩ := x
    obtain ⟨l', b'⟩ := y
    rw [put, put, hK hxy.fst hk]
    cases l' == l with
    | true => exact .cons ⟨hxy.fst, hab⟩ hrest
    | false => exact .cons hxy ih

theorem putAll_twin (h : List.Forall₂ (Both K V) xs ys) :
    List.Forall₂ (Both K V) (putAll xs) (putAll ys) :=
  h.foldl (S := List.Forall₂ (Both K V)) (fun hdone hxy => put_twin hK hdone hxy.fst hxy.snd) .nil

end

/-! ## Types, members and initialisers -/

/-- The identities and comments correspond. -/
structure NodeInfo.Twin (L : Leeway) (i j : NodeInfo) : Prop where
  id : L.id i.id j.id
  comments : L.comments i.comments j.comments

/-- The identities and comments correspond, hints for names included. -/
structure NodeInfo.Hinted (L : Leeway) (i j : NodeInfo) : Prop where
  id : L.id i.id j.id
  hints : L.hints i.comments j.comments

mutual

/-- The types differ in identities and comments only. -/
inductive Ty.Twin (L : Leeway) : Ty → Ty → Prop
  | ref {i j : NodeInfo} {x : QIdent} {ts us : List Ty} (hi : i.Twin L j)
    (hts : List.Forall₂ (Ty.Twin L) ts us) : Ty.Twin L (.ref i x ts) (.ref j x us)
  | literal {i j : NodeId} {v : Literal} (hi : L.id i j) : Ty.Twin L (.literal i v) (.literal j v)
  | object {i j : NodeInfo} {ms ns : List Member} (hi : i.Hinted L j)
    (hms : List.Forall₂ (Member.Twin L) ms ns) : Ty.Twin L (.object i ms) (.object j ns)
  | function {s r : Signature} (hs : Signature.Twin L s r) : Ty.Twin L (.function s) (.function r)
  | constructor {i j : NodeId} {a : Bool} {s r : Signature} (hi : L.id i j)
    (hs : Signature.Twin L s r) : Ty.Twin L (.constructor i a s) (.constructor j a r)
  | tuple {i j : NodeId} {es fs : List TupleElem} (hi : L.id i j)
    (hes : List.Forall₂ (TupleElem.Twin L) es fs) : Ty.Twin L (.tuple i es) (.tuple j fs)
  | query {i j : NodeId} {x : QIdent} (hi : L.id i j) : Ty.Twin L (.query i x) (.query j x)
  | repeated {i j : NodeId} {t u : Ty} (hi : L.id i j) (ht : Ty.Twin L t u) :
    Ty.Twin L (.repeated i t) (.repeated j u)
  | keyOf {i j : NodeId} {t u : Ty} (hi : L.id i j) (ht : Ty.Twin L t u) :
    Ty.Twin L (.keyOf i t) (.keyOf j u)
  | lookup {i j : NodeId} {t k u l : Ty} (hi : L.id i j) (ht : Ty.Twin L t u) (hk : Ty.Twin L k l) :
    Ty.Twin L (.lookup i t k) (.lookup j u l)
  | this : Ty.Twin L .this .this
  | union {i j : NodeId} {ts us : List Ty} (hi : L.id i j) (hts : List.Forall₂ (Ty.Twin L) ts us) :
    Ty.Twin L (.union i ts) (.union j us)
  | intersect {i j : NodeId} {ts us : List Ty} (hi : L.id i j)
    (hts : List.Forall₂ (Ty.Twin L) ts us) : Ty.Twin L (.intersect i ts) (.intersect j us)
  | conditional {i j : NodeId} {p t e q u f : Ty} (hi : L.id i j) (hp : Ty.Twin L p q)
    (ht : Ty.Twin L t u) (he : Ty.Twin L e f) :
    Ty.Twin L (.conditional i p t e) (.conditional j q u f)
  | extending {i j : NodeId} {t b u c : Ty} (hi : L.id i j) (ht : Ty.Twin L t u)
    (hb : Ty.Twin L b c) : Ty.Twin L (.extending i t b) (.extending j u c)
  | infer {p q : TypeParam} (hp : TypeParam.Twin L p q) : Ty.Twin L (.infer p) (.infer q)
  | is {i j : NodeId} {x : Ident} {t u : Ty} (hi : L.id i j) (ht : Ty.Twin L t u) :
    Ty.Twin L (.is i x t) (.is j x u)

inductive TupleElem.Twin (L : Leeway) : TupleElem → TupleElem → Prop
  | mk {l : Option Ident} {t u : Ty} (ht : Ty.Twin L t u) : TupleElem.Twin L ⟨l, t⟩ ⟨l, u⟩

inductive TypeParam.Twin (L : Leeway) : TypeParam → TypeParam → Prop
  | mk {i j : NodeInfo} {x : Ident} {b c d e : Option Ty} (hi : i.Twin L j)
    (hb : Option.Rel (Ty.Twin L) b c) (hd : Option.Rel (Ty.Twin L) d e) :
    TypeParam.Twin L ⟨i, x, b, d⟩ ⟨j, x, c, e⟩

inductive Param.Twin (L : Leeway) : Param → Param → Prop
  | mk {i j : NodeInfo} {x : Ident} {t u : Option Ty} (hi : i.Twin L j)
    (ht : Option.Rel (Ty.Twin L) t u) : Param.Twin L ⟨i, x, t⟩ ⟨j, x, u⟩

inductive Signature.Twin (L : Leeway) : Signature → Signature → Prop
  | mk {i j : NodeInfo} {ps qs : List TypeParam} {xs ys : List Param} {r u : Option Ty}
    (hi : i.Twin L j) (hps : List.Forall₂ (TypeParam.Twin L) ps qs)
    (hxs : List.Forall₂ (Param.Twin L) xs ys) (hr : Option.Rel (Ty.Twin L) r u) :
    Signature.Twin L ⟨i, ps, xs, r⟩ ⟨j, qs, ys, u⟩

inductive Member.Twin (L : Leeway) : Member → Member → Prop
  | call {i j : NodeInfo} {l : Level} {s r : Signature} (hi : i.Twin L j)
    (hs : Signature.Twin L s r) : Member.Twin L (.call ⟨i, l, s⟩) (.call ⟨j, l, r⟩)
  | ctor {i j : NodeInfo} {l : Level} {s r : Signature} (hi : i.Twin L j)
    (hs : Signature.Twin L s r) : Member.Twin L (.ctor ⟨i, l, s⟩) (.ctor ⟨j, l, r⟩)
  | function {i j : NodeInfo} {l : Level} {x : Ident} {k : MethodKind} {s r : Signature}
    {st ro : Bool} (hi : i.Twin L j) (hs : Signature.Twin L s r) :
    Member.Twin L (.function ⟨i, l, x, k, s, st, ro⟩) (.function ⟨j, l, x, k, r, st, ro⟩)
  | property {i j : NodeInfo} {l : Level} {x : Ident} {t u : Option Ty} {e f : Option Expr}
    {st ro : Bool} (hi : i.Twin L j) (ht : Option.Rel (Ty.Twin L) t u)
    (he : Option.Rel (Expr.Twin L) e f) :
    Member.Twin L (.property ⟨i, l, x, t, e, st, ro⟩) (.property ⟨j, l, x, u, f, st, ro⟩)
  | dict {i j : NodeInfo} {ro : Bool} {l : Level} {x : Ident} {k m : Ty} {v w : Option Ty}
    (hi : i.Twin L j) (hk : Ty.Twin L k m) (hv : Option.Rel (Ty.Twin L) v w) :
    Member.Twin L (.index ⟨i, ro, l, .dict x k, v⟩) (.index ⟨j, ro, l, .dict x m, w⟩)
  | single {i j : NodeInfo} {ro : Bool} {l : Level} {x : QIdent} {v w : Option Ty}
    (hi : i.Twin L j) (hv : Option.Rel (Ty.Twin L) v w) :
    Member.Twin L (.index ⟨i, ro, l, .single x, v⟩) (.index ⟨j, ro, l, .single x, w⟩)
  | mapped {i j : NodeInfo} {l : Level} {ro : ReadonlyModifier} {x : Ident} {s r : Ty}
    {a b : Option Ty} {o : OptionalModifier} {t u : Ty} (hi : i.Hinted L j) (hs : Ty.Twin L s r)
    (ha : Option.Rel (Ty.Twin L) a b) (ht : Ty.Twin L t u) :
    Member.Twin L (.mapped ⟨i, l, ro, x, s, a, o, t⟩) (.mapped ⟨j, l, ro, x, r, b, o, u⟩)

/-- The types in the initialisers differ in identities and comments only. -/
inductive Expr.Twin (L : Leeway) : Expr → Expr → Prop
  | ref {x : QIdent} : Expr.Twin L (.ref x) (.ref x)
  | literal {v : Literal} : Expr.Twin L (.literal v) (.literal v)
  | call {f g : Expr} {ps qs : List Expr} (hf : Expr.Twin L f g)
    (hps : List.Forall₂ (Expr.Twin L) ps qs) : Expr.Twin L (.call f ps) (.call g qs)
  | unary {o : String} {e f : Expr} (he : Expr.Twin L e f) : Expr.Twin L (.unary o e) (.unary o f)
  | binary {a b c d : Expr} {o : String} (ha : Expr.Twin L a c) (hb : Expr.Twin L b d) :
    Expr.Twin L (.binary a o b) (.binary c o d)
  | cast {e f : Expr} {t u : Ty} (he : Expr.Twin L e f) (ht : Ty.Twin L t u) :
    Expr.Twin L (.cast e t) (.cast f u)
  | arrayOf {e f : Expr} (he : Expr.Twin L e f) : Expr.Twin L (.arrayOf e) (.arrayOf f)

end

abbrev Ty.Twins (L : Leeway) : List Ty → List Ty → Prop := List.Forall₂ (Ty.Twin L)

abbrev TypeParam.Twins (L : Leeway) : List TypeParam → List TypeParam → Prop := List.Forall₂ (TypeParam.Twin L)

abbrev Member.Twins (L : Leeway) : List Member → List Member → Prop := List.Forall₂ (Member.Twin L)

/-! ## Declarations, files and nodes -/

/-- The members of enumerations differ in comments and in the types of initialisers only. -/
structure EnumMember.Twin (L : Leeway) (a b : EnumMember) : Prop where
  comments : L.comments a.comments b.comments
  name : a.name = b.name
  expr : Option.Rel (Expr.Twin L) a.expr b.expr

structure ClassDecl.Twin (L : Leeway) (c d : ClassDecl) : Prop where
  info : c.info.Twin L d.info
  declared : c.declared = d.declared
  isAbstract : c.isAbstract = d.isAbstract
  name : c.name = d.name
  tparams : List.Forall₂ (TypeParam.Twin L) c.tparams d.tparams
  parent : Option.Rel (Ty.Twin L) c.parent d.parent
  implements : List.Forall₂ (Ty.Twin L) c.implements d.implements
  members : List.Forall₂ (Member.Twin L) c.members d.members
  jsLocation : c.jsLocation = d.jsLocation
  codePath : c.codePath = d.codePath

structure InterfaceDecl.Twin (L : Leeway) (i j : InterfaceDecl) : Prop where
  info : i.info.Twin L j.info
  declared : i.declared = j.declared
  name : i.name = j.name
  tparams : List.Forall₂ (TypeParam.Twin L) i.tparams j.tparams
  inheritance : List.Forall₂ (Ty.Twin L) i.inheritance j.inheritance
  members : List.Forall₂ (Member.Twin L) i.members j.members
  codePath : i.codePath = j.codePath

structure EnumDecl.Twin (L : Leeway) (e f : EnumDecl) : Prop where
  info : e.info.Twin L f.info
  declared : e.declared = f.declared
  isConst : e.isConst = f.isConst
  name : e.name = f.name
  members : List.Forall₂ (EnumMember.Twin L) e.members f.members
  isValue : e.isValue = f.isValue
  exportedFrom : Option.Rel (Ty.Twin L) e.exportedFrom f.exportedFrom
  jsLocation : e.jsLocation = f.jsLocation
  codePath : e.codePath = f.codePath

structure VarDecl.Twin (L : Leeway) (v w : VarDecl) : Prop where
  info : v.info.Twin L w.info
  declared : v.declared = w.declared
  readonly : v.readonly = w.readonly
  name : v.name = w.name
  tpe : Option.Rel (Ty.Twin L) v.tpe w.tpe
  expr : Option.Rel (Expr.Twin L) v.expr w.expr
  jsLocation : v.jsLocation = w.jsLocation
  codePath : v.codePath = w.codePath

structure FunctionDecl.Twin (L : Leeway) (f g : FunctionDecl) : Prop where
  info : f.info.Twin L g.info
  declared : f.declared = g.declared
  name : f.name = g.name
  sig : f.sig.Twin L g.sig
  jsLocation : f.jsLocation = g.jsLocation
  codePath : f.codePath = g.codePath

structure AliasDecl.Twin (L : Leeway) (a b : AliasDecl) : Prop where
  info : a.info.Twin L b.info
  declared : a.declared = b.declared
  name : a.name = b.name
  tparams : List.Forall₂ (TypeParam.Twin L) a.tparams b.tparams
  target : a.target.Twin L b.target
  codePath : a.codePath = b.codePath

structure ImportDecl.Twin (L : Leeway) (i j : ImportDecl) : Prop where
  id : L.id i.id j.id
  typeOnly : i.typeOnly = j.typeOnly
  imported : i.imported = j.imported
  source : i.source = j.source

structure SpaceHead.Twin (L : Leeway) (h g : SpaceHead) : Prop where
  info : h.info.Twin L g.info
  declared : h.declared = g.declared
  name : h.name = g.name
  codePath : h.codePath = g.codePath
  jsLocation : h.jsLocation = g.jsLocation

structure AugmentHead.Twin (L : Leeway) (h g : AugmentHead) : Prop where
  info : h.info.Twin L g.info
  name : h.name = g.name
  codePath : h.codePath = g.codePath
  jsLocation : h.jsLocation = g.jsLocation

structure GlobalHead.Twin (L : Leeway) (h g : GlobalHead) : Prop where
  info : h.info.Twin L g.info
  declared : h.declared = g.declared
  codePath : h.codePath = g.codePath

structure ExportHead.Twin (L : Leeway) (h g : ExportHead) : Prop where
  info : h.info.Twin L g.info
  typeOnly : h.typeOnly = g.typeOnly
  kind : h.kind = g.kind

structure NamespaceExport.Twin (L : Leeway) (e f : NamespaceExport) : Prop where
  id : L.id e.id f.id
  name : e.name = f.name

mutual

inductive Decl.Twin (L : Leeway) : Decl → Decl → Prop
  | space {h g : SpaceHead} {ms ns : List Decl} (hh : h.Twin L g)
    (hms : List.Forall₂ (Decl.Twin L) ms ns) : Decl.Twin L (.space h ms) (.space g ns)
  | module {h g : SpaceHead} {ms ns : List Decl} (hh : h.Twin L g)
    (hms : List.Forall₂ (Decl.Twin L) ms ns) : Decl.Twin L (.module h ms) (.module g ns)
  | augmentation {h g : AugmentHead} {ms ns : List Decl} (hh : h.Twin L g)
    (hms : List.Forall₂ (Decl.Twin L) ms ns) : Decl.Twin L (.augmentation h ms) (.augmentation g ns)
  | global {h g : GlobalHead} {ms ns : List Decl} (hh : h.Twin L g)
    (hms : List.Forall₂ (Decl.Twin L) ms ns) : Decl.Twin L (.global h ms) (.global g ns)
  | cls {c d : ClassDecl} (hc : c.Twin L d) : Decl.Twin L (.cls c) (.cls d)
  | iface {i j : InterfaceDecl} (hi : i.Twin L j) : Decl.Twin L (.iface i) (.iface j)
  | enum {e f : EnumDecl} (he : e.Twin L f) : Decl.Twin L (.enum e) (.enum f)
  | var {v w : VarDecl} (hv : v.Twin L w) : Decl.Twin L (.var v) (.var w)
  | function {f g : FunctionDecl} (hf : f.Twin L g) : Decl.Twin L (.function f) (.function g)
  | typeAlias {a b : AliasDecl} (ha : a.Twin L b) : Decl.Twin L (.typeAlias a) (.typeAlias b)
  | imports {i j : ImportDecl} (hi : i.Twin L j) : Decl.Twin L (.imports i) (.imports j)
  | exports {h g : ExportHead} {e f : Exportee} (hh : h.Twin L g) (he : Exportee.Twin L e f) :
    Decl.Twin L (.exports h e) (.exports g f)
  | exportAs {e f : NamespaceExport} (he : e.Twin L f) : Decl.Twin L (.exportAs e) (.exportAs f)

inductive Exportee.Twin (L : Leeway) : Exportee → Exportee → Prop
  | names {xs : List (QIdent × Option Ident)} {s : Option Ident} :
    Exportee.Twin L (.names xs s) (.names xs s)
  | inline {d e : Decl} (hd : Decl.Twin L d e) : Exportee.Twin L (.inline d) (.inline e)
  | star {a : Option Ident} {s : Ident} : Exportee.Twin L (.star a s) (.star a s)

end

abbrev Decl.Twins (L : Leeway) : List Decl → List Decl → Prop := List.Forall₂ (Decl.Twin L)

structure File.Twin (L : Leeway) (f g : File) : Prop where
  info : f.info.Twin L g.info
  directives : f.directives = g.directives
  members : List.Forall₂ (Decl.Twin L) f.members g.members
  codePath : f.codePath = g.codePath

inductive Node.Twin (L : Leeway) : Node → Node → Prop
  | file {f g : File} (h : f.Twin L g) : Node.Twin L (.file f) (.file g)
  | decl {d e : Decl} (h : d.Twin L e) : Node.Twin L (.decl d) (.decl e)
  | member {m n : Member} (h : m.Twin L n) : Node.Twin L (.member m) (.member n)
  | ty {t u : Ty} (h : t.Twin L u) : Node.Twin L (.ty t) (.ty u)
  | sig {s r : Signature} (h : s.Twin L r) : Node.Twin L (.sig s) (.sig r)
  | param {p q : Param} (h : p.Twin L q) : Node.Twin L (.param p) (.param q)
  | tparam {p q : TypeParam} (h : p.Twin L q) : Node.Twin L (.tparam p) (.tparam q)

/-! ## What twins have in common -/

section
variable {L : Leeway}

theorem NodeInfo.Hinted.twin (hL : L.Fair) {i j : NodeInfo} (h : i.Hinted L j) : i.Twin L j :=
  ⟨h.id, hL.comments_of_hints h.hints⟩

theorem Leeway.Fair.new (hL : L.Fair) {a b : Comments} (h : L.comments a b) :
    NodeInfo.Twin L { comments := a } { comments := b } :=
  ⟨hL.id_zero, h⟩

theorem Leeway.Fair.fresh (hL : L.Fair) : NodeInfo.Twin L {} {} :=
  hL.new hL.comments_nil

namespace TypeParam.Twin

variable {p q : TypeParam}

theorem info (h : p.Twin L q) : p.info.Twin L q.info := by
  cases h; assumption

theorem name_eq (h : p.Twin L q) : p.name = q.name := by
  cases h; rfl

theorem upperBound (h : p.Twin L q) : Option.Rel (Ty.Twin L) p.upperBound q.upperBound := by
  cases h; assumption

theorem default (h : p.Twin L q) : Option.Rel (Ty.Twin L) p.default q.default := by
  cases h; assumption

theorem asTy (hL : L.Fair) (h : p.Twin L q) : p.asTy.Twin L q.asTy := by
  cases h
  exact .ref hL.fresh .nil

end TypeParam.Twin

theorem Param.Twin.info {p q : Param} (h : p.Twin L q) : p.info.Twin L q.info := by
  cases h; assumption

namespace Signature.Twin

variable {s r : Signature}

theorem info (h : s.Twin L r) : s.info.Twin L r.info := by
  cases h; assumption

theorem tparams (h : s.Twin L r) : TypeParam.Twins L s.tparams r.tparams := by
  cases h; assumption

theorem params (h : s.Twin L r) : List.Forall₂ (Param.Twin L) s.params r.params := by
  cases h; assumption

theorem result (h : s.Twin L r) : Option.Rel (Ty.Twin L) s.result r.result := by
  cases h; assumption

end Signature.Twin

namespace Ty.Twin

variable {t u : Ty}

theorem id (hL : L.Fair) (h : t.Twin L u) : L.id t.id u.id := by
  cases h with
  | ref hi _ | object hi _ => exact hi.id
  | function hs => exact hs.info.id
  | infer hp => exact hp.info.id
  | this => exact hL.id_zero
  | _ => assumption

theorem isNamed_eq (x : Ident) (h : t.Twin L u) : t.isNamed x = u.isNamed x := by
  cases h with
  | @ref _ _ q _ _ _ hts =>
    match q, hts with
    | [], _ | _ :: _ :: _, _ => rfl
    | [_], .nil => rfl
    | [_], .cons _ _ => rfl
  | _ => rfl

theorem refName?_eq (h : t.Twin L u) : t.refName? = u.refName? := by
  cases h <;> rfl

end Ty.Twin

namespace Member.Twin

variable {m n : Member}

theorem name?_eq (h : m.Twin L n) : m.name? = n.name? := by cases h <;> rfl

theorem isStatic_eq (h : m.Twin L n) : m.isStatic = n.isStatic := by cases h <;> rfl

theorem isClassCtor_eq (h : m.Twin L n) : m.isClassCtor = n.isClassCtor := by cases h <;> rfl

theorem isDict_eq (h : m.Twin L n) : m.isDict = n.isDict := by cases h <;> rfl

theorem isMapped_eq (h : m.Twin L n) : m.isMapped = n.isMapped := by cases h <;> rfl

theorem fragment?_eq (h : m.Twin L n) : m.fragment? = n.fragment? := by cases h <;> rfl

theorem info (hL : L.Fair) (h : m.Twin L n) : m.info.Twin L n.info := by
  cases h with
  | mapped hi _ _ _ => exact hi.twin hL
  | _ => assumption

end Member.Twin

theorem Member.isTypeMapping_eq {ms ns : List Member} (h : Member.Twins L ms ns) :
    Member.isTypeMapping ms = Member.isTypeMapping ns :=
  h.any_eq Member.Twin.isMapped_eq

theorem Member.isDictionary_eq {ms ns : List Member} (h : Member.Twins L ms ns) :
    Member.isDictionary ms = Member.isDictionary ns := by
  rw [isDictionary, isDictionary, h.isEmpty_eq, h.all_eq Member.Twin.isDict_eq]

theorem candidates_eq {ms ns : List Member} (h : Member.Twins L ms ns) (stem : String) :
    candidates stem ms = candidates stem ns := by
  have hfrg : fragments ms = fragments ns := by
    rw [fragments, fragments, h.filterMap_eq Member.Twin.fragment?_eq]
  rw [candidates, candidates, hfrg]

namespace Decl.Twin

variable {d e : Decl}

theorem id (h : d.Twin L e) : L.id d.id e.id := by
  cases h with
  | space hh _ | module hh _ | augmentation hh _ | global hh _ => exact hh.info.id
  | cls hc => exact hc.info.id
  | iface hi => exact hi.info.id
  | enum he => exact he.info.id
  | var hv => exact hv.info.id
  | function hf => exact hf.info.id
  | typeAlias ha => exact ha.info.id
  | imports hi => exact hi.id
  | exports hh _ => exact hh.info.id
  | exportAs he => exact he.id

theorem name?_eq (h : d.Twin L e) : d.name? = e.name? := by
  cases h with
  | space hh _ | module hh _ | augmentation hh _ => exact congrArg some hh.name
  | cls hc => exact congrArg some hc.name
  | iface hi => exact congrArg some hi.name
  | enum he => exact congrArg some he.name
  | var hv => exact congrArg some hv.name
  | function hf => exact congrArg some hf.name
  | typeAlias ha => exact congrArg some ha.name
  | _ => rfl

theorem codePath?_eq (h : d.Twin L e) : d.codePath? = e.codePath? := by
  cases h with
  | space hh _ | module hh _ | augmentation hh _ | global hh _ => exact congrArg some hh.codePath
  | cls hc => exact congrArg some hc.codePath
  | iface hi => exact congrArg some hi.codePath
  | enum he => exact congrArg some he.codePath
  | var hv => exact congrArg some hv.codePath
  | function hf => exact congrArg some hf.codePath
  | typeAlias ha => exact congrArg some ha.codePath
  | _ => rfl

theorem isType_eq (h : d.Twin L e) : d.isType = e.isType := by cases h <;> rfl

theorem isClass_eq (h : d.Twin L e) : d.isClass = e.isClass := by cases h <;> rfl

theorem isInterface_eq (h : d.Twin L e) : d.isInterface = e.isInterface := by cases h <;> rfl

theorem members? (h : d.Twin L e) : Option.Rel (Decl.Twins L) d.members? e.members? := by
  cases h with
  | space _ hms | module _ hms | augmentation _ hms | global _ hms => exact .some hms
  | _ => exact .none

theorem tparams (h : d.Twin L e) : TypeParam.Twins L d.tparams e.tparams := by
  cases h with
  | cls hc => exact hc.tparams
  | iface hi => exact hi.tparams
  | typeAlias ha => exact ha.tparams
  | function hf => exact hf.sig.tparams
  | _ => exact .nil

theorem unwrapExport (h : d.Twin L e) : d.unwrapExport.Twin L e.unwrapExport := by
  have hde := h
  cases h with
  | exports hh he =>
    cases he with
    | inline hd => exact hd
    | names => exact .exports hh .names
    | star => exact .exports hh .star
  | _ => exact hde

end Decl.Twin

end

end Ambient
