import Ambient.Proofs.Contents
import Ambient.Tree.Decode
import Ambient.Tree.Encode

/-!
# The exchange format loses nothing

Reading what was written for a tree gives the contents of the tree: all that it says, comments and
markers included (`exchange_keeps_file`). Identities are not part of the format.

A reader of nested parts takes a bound on the nesting. It suffices that the bound is above the depth of
what is read (`Ty.decode_toJson`, `Decl.decode_toJson`), since each step down in the tree is one down in
the value. A missing part is written as `null`, so no part that is there may be.
-/

namespace Ambient

open Json (ofOption ofList tagged)

/-! ## Reading step by step -/

variable {α β : Type}

namespace Json

theorem reads {x : Option α} {f : α → Option β} {a : α} {b : β} (hx : x = some a) (hf : f a = some b) :
    (x >>= f) = some b := by
  rw [hx]
  exact hf

theorem reads_map {x : Option α} {f : α → β} {a : α} (hx : x = some a) : x.map f = some (f a) := by
  rw [hx]
  rfl

theorem list?_cons {g : Json → Option α} {j : Json} {js : List Json} {a : α} {as : List α}
    (hj : g j = some a) (hjs : list? g (.arr js) = some as) : list? g (.arr (j :: js)) = some (a :: as) := by
  show (j :: js).mapM g = _
  rw [List.mapM_cons]
  exact reads hj (reads hjs rfl)

/-- A list is read item by item. -/
theorem list?_ofList {f : α → Json} {g : Json → Option β} {h : α → β} {k : List α → List β}
    (hnil : k [] = []) (hcons : ∀ a as, k (a :: as) = h a :: k as) (hfg : ∀ a, g (f a) = some (h a))
    (as : List α) : list? g (ofList f as) = some (k as) := by
  induction as with
  | nil => exact congrArg some hnil.symm
  | cons a as ih => exact hcons a as ▸ list?_cons (hfg a) ih

theorem list?_ofList_self {f : α → Json} {g : Json → Option α} {as : List α}
    (hfg : ∀ a, g (f a) = some a) : list? g (ofList f as) = some as :=
  list?_ofList (k := id) rfl (fun _ _ => rfl) hfg as

theorem option?_of_ne_null {f : Json → Option α} {j : Json} {a : α} (hj : j ≠ .null) (hf : f j = some a) :
    option? f j = some (some a) := by
  cases j with
  | null => exact absurd rfl hj
  | _ => exact reads_map hf

theorem option?_ofOption {f : α → Json} {g : Json → Option β} {h : α → β} {a : Option α}
    (hne : ∀ a, f a ≠ .null) (hfg : ∀ a, g (f a) = some (h a)) :
    option? g (ofOption f a) = some (a.map h) := by
  cases a with
  | none => rfl
  | some a => exact option?_of_ne_null (hne a) (hfg a)

theorem option?_str (s : Option String) : option? str? (ofOption .str s) = some s := by
  cases s <;> rfl

theorem list?_pair {f : α → Json} {g : Json → Option α} (hfg : ∀ a, g (f a) = some a)
    (xs : List (α × Option String)) :
    list? (pair? g (option? str?)) (ofList (fun (x, a) => .arr [f x, ofOption .str a]) xs) =
      some xs := by
  exact list?_ofList_self fun (x, a) => reads (hfg x) (reads (option?_str a) rfl)

end Json

open Json (reads reads_map list?_ofList list?_ofList_self list?_cons option?_of_ne_null option?_ofOption
  option?_str list?_pair)

/-! ## Names, comments and places -/

theorem QIdent.ofJson?_toJson (q : QIdent) : QIdent.ofJson? (QIdent.toJson q) = some q := by
  exact list?_ofList_self fun _ => rfl

theorem Comment.ofJson?_toJson (c : Comment) : Comment.ofJson? c.toJson = some c := by
  cases c with
  | raw text => rfl
  | marker m => cases m <;> rfl

theorem Comments.ofJson?_toJson (cs : Comments) : Comments.ofJson? cs.toJson = some cs := by
  exact list?_ofList_self Comment.ofJson?_toJson

theorem NodeInfo.ofJson?_toJson (i : NodeInfo) :
    NodeInfo.ofJson? i.comments.toJson = some i.contents := by
  exact reads_map (Comments.ofJson?_toJson i.comments)

theorem CodePath.ofJson?_toJson (p : CodePath) : CodePath.ofJson? p.toJson = some p := by
  cases p with
  | noPath => rfl
  | hasPath lib path =>
    exact reads rfl <| reads rfl <| reads (QIdent.ofJson?_toJson path) rfl

theorem JsLocation.ofJson?_toJson (l : JsLocation) : JsLocation.ofJson? l.toJson = some l := by
  cases l with
  | zero => rfl
  | global path => exact reads_map (QIdent.ofJson?_toJson path)
  | module name path =>
    exact reads rfl <| reads rfl <| reads (QIdent.ofJson?_toJson path) rfl

theorem Literal.ofJson?_toJson (v : Literal) : Literal.ofJson? v.toJson = some v := by
  cases v <;> rfl

theorem Level.ofJson?_toJson (l : Level) : Level.ofJson? l.toJson = some l := by
  cases l <;> rfl

theorem MethodKind.ofJson?_toJson (k : MethodKind) : MethodKind.ofJson? k.toJson = some k := by
  cases k <;> rfl

theorem ReadonlyModifier.ofJson?_toJson (r : ReadonlyModifier) :
    ReadonlyModifier.ofJson? r.toJson = some r := by
  cases r <;> rfl

theorem OptionalModifier.ofJson?_toJson (o : OptionalModifier) :
    OptionalModifier.ofJson? o.toJson = some o := by
  cases o <;> rfl

/-! ## Types, members and initialisers -/

theorem Ty.toJson_ne_null (t : Ty) : t.toJson ≠ .null := by
  cases t <;> simp [Ty.toJson, tagged]

theorem Expr.toJson_ne_null (e : Expr) : e.toJson ≠ .null := by
  cases e <;> simp [Expr.toJson, tagged]

mutual

theorem Ty.decode_toJson (t : Ty) {n : Nat} (h : t.toJson.depth < n) :
    Ty.decode n t.toJson = some t.contents := by
  obtain ⟨k, rfl⟩ : ∃ k, n = k + 1 := ⟨n - 1, by omega⟩
  cases t with
    simp only [Ty.toJson, tagged, Json.depth, Json.depthFields] at h ⊢
  | ref i x ts =>
    have hts := Ty.decode_toJsonList ts (n := k) (by omega)
    exact reads rfl <| reads i.ofJson?_toJson <| reads (QIdent.ofJson?_toJson x) <| reads hts rfl
  | literal i v =>
    exact reads_map v.ofJson?_toJson
  | object i ms =>
    have hms := Member.decode_toJsonList ms (n := k) (by omega)
    exact reads rfl <| reads i.ofJson?_toJson <| reads hms rfl
  | function s =>
    have hs := Signature.decode_toJson s (n := k) (by omega)
    exact reads_map hs
  | constructor i a s =>
    have hs := Signature.decode_toJson s (n := k) (by omega)
    exact reads rfl <| reads rfl <| reads hs rfl
  | tuple i es =>
    have hes := TupleElem.decode_toJsonList es (n := k) (by omega)
    exact reads rfl <| reads hes rfl
  | query i x =>
    exact reads_map (QIdent.ofJson?_toJson x)
  | repeated i t | keyOf i t =>
    have ht := Ty.decode_toJson t (n := k) (by omega)
    exact reads_map ht
  | lookup i t u =>
    have ht := Ty.decode_toJson t (n := k) (by omega)
    have hu := Ty.decode_toJson u (n := k) (by omega)
    exact reads rfl <| reads ht <| reads hu rfl
  | this =>
    rfl
  | union i ts | intersect i ts =>
    have hts := Ty.decode_toJsonList ts (n := k) (by omega)
    exact reads rfl <| reads hts rfl
  | conditional i p t e =>
    have hp := Ty.decode_toJson p (n := k) (by omega)
    have ht := Ty.decode_toJson t (n := k) (by omega)
    have he := Ty.decode_toJson e (n := k) (by omega)
    exact reads rfl <| reads hp <| reads ht <| reads he rfl
  | extending i t b =>
    have ht := Ty.decode_toJson t (n := k) (by omega)
    have hb := Ty.decode_toJson b (n := k) (by omega)
    exact reads rfl <| reads ht <| reads hb rfl
  | infer p =>
    have hp := TypeParam.decode_toJson p (n := k) (by omega)
    exact reads_map hp
  | is i x t =>
    have ht := Ty.decode_toJson t (n := k) (by omega)
    exact reads rfl <| reads rfl <| reads ht rfl

theorem Ty.decode_toJsonList (ts : List Ty) {n : Nat} (h : Json.depthItems (Ty.toJsonList ts) < n) :
    Json.list? (Ty.decode n) (.arr (Ty.toJsonList ts)) = some (Ty.contentsList ts) := by
  cases ts with
  | nil => rfl
  | cons t ts =>
    simp only [Ty.toJsonList, Json.depthItems] at h
    exact list?_cons (Ty.decode_toJson t (by omega)) (Ty.decode_toJsonList ts (by omega))

theorem Ty.decode_toJsonOption (t : Option Ty) {n : Nat} (h : (Ty.toJsonOption t).depth < n) :
    Json.option? (Ty.decode n) (Ty.toJsonOption t) = some (Ty.contentsOption t) := by
  cases t with
  | none => rfl
  | some t => exact option?_of_ne_null t.toJson_ne_null (Ty.decode_toJson t h)

theorem TupleElem.decode_toJsonList (es : List TupleElem) {n : Nat}
    (h : Json.depthItems (TupleElem.toJsonList es) < n) :
    Json.list? (TupleElem.decode n) (.arr (TupleElem.toJsonList es)) =
      some (TupleElem.contentsList es) := by
  match es with
  | [] => rfl
  | ⟨l, t⟩ :: es =>
    obtain ⟨k, rfl⟩ : ∃ k, n = k + 1 := ⟨n - 1, by omega⟩
    simp only [TupleElem.toJsonList, Json.depthItems, Json.depth, Json.depthFields] at h
    have ht := Ty.decode_toJson t (n := k) (by omega)
    have hes := TupleElem.decode_toJsonList es (n := k + 1) (by omega)
    exact list?_cons (reads rfl <| reads (option?_str l) <| reads ht rfl) hes

theorem TypeParam.decode_toJson (p : TypeParam) {n : Nat} (h : p.toJson.depth < n) :
    TypeParam.decode n p.toJson = some p.contents := by
  obtain ⟨k, rfl⟩ : ∃ k, n = k + 1 := ⟨n - 1, by omega⟩
  obtain ⟨i, x, b, d⟩ := p
  simp only [TypeParam.toJson, Json.depth, Json.depthFields] at h
  have hb := Ty.decode_toJsonOption b (n := k) (by omega)
  have hd := Ty.decode_toJsonOption d (n := k) (by omega)
  rw [TypeParam.toJson]
  exact reads rfl <| reads i.ofJson?_toJson <| reads rfl <| reads hb <| reads hd rfl

theorem TypeParam.decode_toJsonList (ps : List TypeParam) {n : Nat}
    (h : Json.depthItems (TypeParam.toJsonList ps) < n) :
    Json.list? (TypeParam.decode n) (.arr (TypeParam.toJsonList ps)) =
      some (TypeParam.contentsList ps) := by
  cases ps with
  | nil => rfl
  | cons p ps =>
    simp only [TypeParam.toJsonList, Json.depthItems] at h
    exact list?_cons (TypeParam.decode_toJson p (by omega)) (TypeParam.decode_toJsonList ps (by omega))

theorem Param.decode_toJson (p : Param) {n : Nat} (h : p.toJson.depth < n) :
    Param.decode n p.toJson = some p.contents := by
  obtain ⟨k, rfl⟩ : ∃ k, n = k + 1 := ⟨n - 1, by omega⟩
  obtain ⟨i, x, t⟩ := p
  simp only [Param.toJson, Json.depth, Json.depthFields] at h
  have ht := Ty.decode_toJsonOption t (n := k) (by omega)
  rw [Param.toJson]
  exact reads rfl <| reads i.ofJson?_toJson <| reads rfl <| reads ht rfl

theorem Param.decode_toJsonList (ps : List Param) {n : Nat}
    (h : Json.depthItems (Param.toJsonList ps) < n) :
    Json.list? (Param.decode n) (.arr (Param.toJsonList ps)) = some (Param.contentsList ps) := by
  cases ps with
  | nil => rfl
  | cons p ps =>
    simp only [Param.toJsonList, Json.depthItems] at h
    have hp := Param.decode_toJson p (n := n) (by omega)
    have hps := Param.decode_toJsonList ps (n := n) (by omega)
    obtain ⟨i, x, t⟩ := p
    exact list?_cons hp hps

theorem Signature.decode_toJson (s : Signature) {n : Nat} (h : s.toJson.depth < n) :
    Signature.decode n s.toJson = some s.contents := by
  obtain ⟨k, rfl⟩ : ∃ k, n = k + 1 := ⟨n - 1, by omega⟩
  obtain ⟨i, ps, xs, r⟩ := s
  simp only [Signature.toJson, Json.depth, Json.depthFields] at h
  have hps := TypeParam.decode_toJsonList ps (n := k) (by omega)
  have hxs := Param.decode_toJsonList xs (n := k) (by omega)
  have hr := Ty.decode_toJsonOption r (n := k) (by omega)
  rw [Signature.toJson]
  exact reads rfl <| reads i.ofJson?_toJson <| reads hps <| reads hxs <| reads hr rfl

theorem Member.decode_toJson (m : Member) {n : Nat} (h : m.toJson.depth < n) :
    Member.decode n m.toJson = some m.contents := by
  obtain ⟨k, rfl⟩ : ∃ k, n = k + 1 := ⟨n - 1, by omega⟩
  match m with
  | .call ⟨i, l, s⟩ | .ctor ⟨i, l, s⟩ =>
    simp only [Member.toJson, tagged, Json.depth, Json.depthFields] at h
    obtain ⟨k, rfl⟩ : ∃ k', k = k' + 1 := ⟨k - 1, by omega⟩
    have hs := Signature.decode_toJson s (n := k) (by omega)
    rw [Member.toJson]
    exact reads_map (a := CallMember.mk i.contents l s.contents) <| reads rfl <|
      reads i.ofJson?_toJson <| reads l.ofJson?_toJson <| reads hs rfl
  | .function ⟨i, l, x, m, s, st, ro⟩ =>
    simp only [Member.toJson, tagged, Json.depth, Json.depthFields] at h
    have hs := Signature.decode_toJson s (n := k) (by omega)
    rw [Member.toJson]
    exact reads rfl <| reads i.ofJson?_toJson <| reads l.ofJson?_toJson <| reads rfl <|
      reads m.ofJson?_toJson <| reads hs <| reads rfl <| reads rfl rfl
  | .property ⟨i, l, x, t, e, st, ro⟩ =>
    simp only [Member.toJson, tagged, Json.depth, Json.depthFields] at h
    have ht := Ty.decode_toJsonOption t (n := k) (by omega)
    have he := Expr.decode_toJsonOption e (n := k) (by omega)
    rw [Member.toJson]
    exact reads rfl <| reads i.ofJson?_toJson <| reads l.ofJson?_toJson <| reads rfl <| reads ht <|
      reads he <| reads rfl <| reads rfl rfl
  | .index ⟨i, ro, l, x, v⟩ =>
    simp only [Member.toJson, tagged, Json.depth, Json.depthFields] at h
    have hx := Indexing.decode_toJson x (n := k) (by omega)
    have hv := Ty.decode_toJsonOption v (n := k) (by omega)
    rw [Member.toJson]
    exact reads rfl <| reads i.ofJson?_toJson <| reads rfl <| reads l.ofJson?_toJson <| reads hx <|
      reads hv (by cases x <;> rfl)
  | .mapped ⟨i, l, ro, x, s, a, o, t⟩ =>
    simp only [Member.toJson, tagged, Json.depth, Json.depthFields] at h
    have hs := Ty.decode_toJson s (n := k) (by omega)
    have ha := Ty.decode_toJsonOption a (n := k) (by omega)
    have ht := Ty.decode_toJson t (n := k) (by omega)
    rw [Member.toJson]
    exact reads rfl <| reads i.ofJson?_toJson <| reads l.ofJson?_toJson <| reads ro.ofJson?_toJson <|
      reads rfl <| reads hs <| reads ha <| reads o.ofJson?_toJson <| reads ht rfl

theorem Member.decode_toJsonList (ms : List Member) {n : Nat}
    (h : Json.depthItems (Member.toJsonList ms) < n) :
    Json.list? (Member.decode n) (.arr (Member.toJsonList ms)) = some (Member.contentsList ms) := by
  cases ms with
  | nil => rfl
  | cons m ms =>
    simp only [Member.toJsonList, Json.depthItems] at h
    exact list?_cons (Member.decode_toJson m (by omega)) (Member.decode_toJsonList ms (by omega))

theorem Indexing.decode_toJson (x : Indexing) {n : Nat} (h : x.toJson.depth < n) :
    Indexing.decode n x.toJson = some x.contents := by
  obtain ⟨k, rfl⟩ : ∃ k, n = k + 1 := ⟨n - 1, by omega⟩
  cases x with
  | dict x t =>
    simp only [Indexing.toJson, tagged, Json.depth, Json.depthFields] at h
    have ht := Ty.decode_toJson t (n := k) (by omega)
    rw [Indexing.toJson]
    exact reads rfl <| reads rfl <| reads ht rfl
  | single x =>
    rw [Indexing.toJson]
    exact reads_map (QIdent.ofJson?_toJson x)

theorem Expr.decode_toJson (e : Expr) {n : Nat} (h : e.toJson.depth < n) :
    Expr.decode n e.toJson = some e.contents := by
  obtain ⟨k, rfl⟩ : ∃ k, n = k + 1 := ⟨n - 1, by omega⟩
  cases e with
    simp only [Expr.toJson, tagged, Json.depth, Json.depthFields] at h ⊢
  | ref x =>
    exact reads_map (QIdent.ofJson?_toJson x)
  | literal v =>
    exact reads_map v.ofJson?_toJson
  | call f ps =>
    have hf := Expr.decode_toJson f (n := k) (by omega)
    have hps := Expr.decode_toJsonList ps (n := k) (by omega)
    exact reads rfl <| reads hf <| reads hps rfl
  | unary o e =>
    have he := Expr.decode_toJson e (n := k) (by omega)
    exact reads rfl <| reads rfl <| reads he rfl
  | binary a o b =>
    have ha := Expr.decode_toJson a (n := k) (by omega)
    have hb := Expr.decode_toJson b (n := k) (by omega)
    exact reads rfl <| reads ha <| reads rfl <| reads hb rfl
  | cast e t =>
    have he := Expr.decode_toJson e (n := k) (by omega)
    have ht := Ty.decode_toJson t (n := k) (by omega)
    exact reads rfl <| reads he <| reads ht rfl
  | arrayOf e =>
    have he := Expr.decode_toJson e (n := k) (by omega)
    exact reads_map he

theorem Expr.decode_toJsonList (es : List Expr) {n : Nat}
    (h : Json.depthItems (Expr.toJsonList es) < n) :
    Json.list? (Expr.decode n) (.arr (Expr.toJsonList es)) = some (Expr.contentsList es) := by
  cases es with
  | nil => rfl
  | cons e es =>
    simp only [Expr.toJsonList, Json.depthItems] at h
    exact list?_cons (Expr.decode_toJson e (by omega)) (Expr.decode_toJsonList es (by omega))

theorem Expr.decode_toJsonOption (e : Option Expr) {n : Nat} (h : (Expr.toJsonOption e).depth < n) :
    Json.option? (Expr.decode n) (Expr.toJsonOption e) = some (Expr.contentsOption e) := by
  cases e with
  | none => rfl
  | some e => exact option?_of_ne_null e.toJson_ne_null (Expr.decode_toJson e h)

end

theorem Ty.ofJson?_toJson (t : Ty) : Ty.ofJson? t.toJson = some t.contents :=
  t.decode_toJson (Nat.lt_succ_self _)

theorem TypeParam.ofJson?_toJson (p : TypeParam) : TypeParam.ofJson? p.toJson = some p.contents :=
  p.decode_toJson (Nat.lt_succ_self _)

theorem Signature.ofJson?_toJson (s : Signature) : Signature.ofJson? s.toJson = some s.contents :=
  s.decode_toJson (Nat.lt_succ_self _)

theorem Member.ofJson?_toJson (m : Member) : Member.ofJson? m.toJson = some m.contents :=
  m.decode_toJson (Nat.lt_succ_self _)

theorem Expr.ofJson?_toJson (e : Expr) : Expr.ofJson? e.toJson = some e.contents :=
  e.decode_toJson (Nat.lt_succ_self _)

/-! ## The parts of declarations -/

theorem Ty.list?_toJson (ts : List Ty) :
    Json.list? Ty.ofJson? (ofList Ty.toJson ts) = some (Ty.contentsList ts) :=
  list?_ofList rfl (fun _ _ => rfl) Ty.ofJson?_toJson ts

theorem TypeParam.list?_toJson (ps : List TypeParam) :
    Json.list? TypeParam.ofJson? (ofList TypeParam.toJson ps) = some (TypeParam.contentsList ps) :=
  list?_ofList rfl (fun _ _ => rfl) TypeParam.ofJson?_toJson ps

theorem Member.list?_toJson (ms : List Member) :
    Json.list? Member.ofJson? (ofList Member.toJson ms) = some (Member.contentsList ms) :=
  list?_ofList rfl (fun _ _ => rfl) Member.ofJson?_toJson ms

theorem Ty.option?_toJson (t : Option Ty) :
    Json.option? Ty.ofJson? (ofOption Ty.toJson t) = some (Ty.contentsOption t) := by
  rw [option?_ofOption Ty.toJson_ne_null Ty.ofJson?_toJson]
  cases t <;> rfl

theorem Expr.option?_toJson (e : Option Expr) :
    Json.option? Expr.ofJson? (ofOption Expr.toJson e) = some (Expr.contentsOption e) := by
  rw [option?_ofOption Expr.toJson_ne_null Expr.ofJson?_toJson]
  cases e <;> rfl

theorem EnumMember.ofJson?_toJson (m : EnumMember) : EnumMember.ofJson? m.toJson = some m.contents := by
  have he : Expr.toJsonOption m.expr = ofOption Expr.toJson m.expr := by
    cases m.expr <;> rfl
  rw [EnumMember.toJson, he]
  exact reads rfl <| reads (Comments.ofJson?_toJson m.comments) <| reads rfl <|
    reads (Expr.option?_toJson m.expr) rfl

theorem EnumMember.list?_toJson (ms : List EnumMember) :
    Json.list? EnumMember.ofJson? (ofList EnumMember.toJson ms) =
      some (EnumMember.contentsList ms) :=
  list?_ofList rfl EnumMember.contentsList_cons EnumMember.ofJson?_toJson ms

theorem Imported.ofJson?_toJson (x : Imported) : Imported.ofJson? x.toJson = some x := by
  cases x with
  | name x => rfl
  | destructured xs => exact reads_map (list?_pair (f := Json.str) (fun _ => rfl) xs)
  | star a => exact reads_map (option?_str a)

theorem Importee.ofJson?_toJson (x : Importee) : Importee.ofJson? x.toJson = some x := by
  cases x with
  | required m | module m => rfl
  | inner x => exact reads_map (QIdent.ofJson?_toJson x)

theorem ExportKind.ofJson?_toJson (k : ExportKind) : ExportKind.ofJson? k.toJson = some k := by
  cases k <;> rfl

theorem Directive.ofJson?_toJson (d : Directive) : Directive.ofJson? d.toJson = some d := by
  cases d <;> rfl

theorem ClassDecl.ofJson?_toJson (c : ClassDecl) :
    ClassDecl.ofJson? c.toJson = some (Id.run (c.renumber fun _ => pure 0)) := by
  rw [ClassDecl.toJson]
  exact reads rfl <| reads c.info.ofJson?_toJson <| reads rfl <| reads rfl <| reads rfl <|
    reads (TypeParam.list?_toJson c.tparams) <| reads (Ty.option?_toJson c.parent) <|
    reads (Ty.list?_toJson c.implements) <| reads (Member.list?_toJson c.members) <|
    reads c.jsLocation.ofJson?_toJson <| reads c.codePath.ofJson?_toJson rfl

theorem InterfaceDecl.ofJson?_toJson (i : InterfaceDecl) :
    InterfaceDecl.ofJson? i.toJson = some (Id.run (i.renumber fun _ => pure 0)) := by
  rw [InterfaceDecl.toJson]
  exact reads rfl <| reads i.info.ofJson?_toJson <| reads rfl <| reads rfl <|
    reads (TypeParam.list?_toJson i.tparams) <| reads (Ty.list?_toJson i.inheritance) <|
    reads (Member.list?_toJson i.members) <| reads i.codePath.ofJson?_toJson rfl

theorem EnumDecl.ofJson?_toJson (e : EnumDecl) :
    EnumDecl.ofJson? e.toJson = some (Id.run (e.renumber fun _ => pure 0)) := by
  rw [EnumDecl.toJson]
  exact reads rfl <| reads e.info.ofJson?_toJson <| reads rfl <| reads rfl <| reads rfl <|
    reads (EnumMember.list?_toJson e.members) <| reads rfl <|
    reads (Ty.option?_toJson e.exportedFrom) <| reads e.jsLocation.ofJson?_toJson <|
    reads e.codePath.ofJson?_toJson rfl

theorem VarDecl.ofJson?_toJson (v : VarDecl) :
    VarDecl.ofJson? v.toJson = some (Id.run (v.renumber fun _ => pure 0)) := by
  rw [VarDecl.toJson]
  exact reads rfl <| reads v.info.ofJson?_toJson <| reads rfl <| reads rfl <| reads rfl <|
    reads (Ty.option?_toJson v.tpe) <| reads (Expr.option?_toJson v.expr) <|
    reads v.jsLocation.ofJson?_toJson <| reads v.codePath.ofJson?_toJson rfl

theorem FunctionDecl.ofJson?_toJson (f : FunctionDecl) :
    FunctionDecl.ofJson? f.toJson = some (Id.run (f.renumber fun _ => pure 0)) := by
  rw [FunctionDecl.toJson]
  exact reads rfl <| reads f.info.ofJson?_toJson <| reads rfl <| reads rfl <|
    reads f.sig.ofJson?_toJson <| reads f.jsLocation.ofJson?_toJson <|
    reads f.codePath.ofJson?_toJson rfl

theorem AliasDecl.ofJson?_toJson (a : AliasDecl) :
    AliasDecl.ofJson? a.toJson = some (Id.run (a.renumber fun _ => pure 0)) := by
  rw [AliasDecl.toJson]
  exact reads rfl <| reads a.info.ofJson?_toJson <| reads rfl <| reads rfl <|
    reads (TypeParam.list?_toJson a.tparams) <| reads a.target.ofJson?_toJson <|
    reads a.codePath.ofJson?_toJson rfl

theorem ImportDecl.ofJson?_toJson (i : ImportDecl) :
    ImportDecl.ofJson? i.toJson = some { i with id := 0 } := by
  rw [ImportDecl.toJson]
  exact reads rfl <| reads rfl <| reads (list?_ofList_self Imported.ofJson?_toJson) <|
    reads i.source.ofJson?_toJson rfl

/-! ## Declarations -/

mutual

theorem Decl.decode_toJson (d : Decl) {n : Nat} (h : d.toJson.depth < n) :
    Decl.decode n d.toJson = some d.contents := by
  obtain ⟨k, rfl⟩ : ∃ k, n = k + 1 := ⟨n - 1, by omega⟩
  cases d with
    simp only [Decl.toJson, tagged, Json.depth, Json.depthFields] at h ⊢
  | space hd ms | module hd ms =>
    have hms := Decl.decode_toJsonList ms (n := k) (by omega)
    exact reads rfl <| reads hd.info.ofJson?_toJson <| reads rfl <| reads rfl <|
      reads hd.codePath.ofJson?_toJson <| reads hd.jsLocation.ofJson?_toJson <| reads hms rfl
  | augmentation hd ms =>
    have hms := Decl.decode_toJsonList ms (n := k) (by omega)
    exact reads rfl <| reads hd.info.ofJson?_toJson <| reads rfl <|
      reads hd.codePath.ofJson?_toJson <| reads hd.jsLocation.ofJson?_toJson <| reads hms rfl
  | global hd ms =>
    have hms := Decl.decode_toJsonList ms (n := k) (by omega)
    exact reads rfl <| reads hd.info.ofJson?_toJson <| reads rfl <|
      reads hd.codePath.ofJson?_toJson <| reads hms rfl
  | cls c => exact reads_map c.ofJson?_toJson
  | iface i => exact reads_map i.ofJson?_toJson
  | enum e => exact reads_map e.ofJson?_toJson
  | var v => exact reads_map v.ofJson?_toJson
  | function f => exact reads_map f.ofJson?_toJson
  | typeAlias a => exact reads_map a.ofJson?_toJson
  | imports i => exact reads_map i.ofJson?_toJson
  | exports hd e =>
    have he := Exportee.decode_toJson e (n := k) (by omega)
    exact reads rfl <| reads hd.info.ofJson?_toJson <| reads rfl <| reads hd.kind.ofJson?_toJson <|
      reads he rfl
  | exportAs e => rfl

theorem Exportee.decode_toJson (x : Exportee) {n : Nat} (h : x.toJson.depth < n) :
    Exportee.decode n x.toJson = some x.contents := by
  obtain ⟨k, rfl⟩ : ∃ k, n = k + 1 := ⟨n - 1, by omega⟩
  cases x with
  | names xs s =>
    rw [Exportee.toJson]
    exact reads rfl <| reads (list?_pair QIdent.ofJson?_toJson xs) <| reads (option?_str s) rfl
  | inline d =>
    simp only [Exportee.toJson, tagged, Json.depth, Json.depthFields] at h
    have hd := Decl.decode_toJson d (n := k) (by omega)
    rw [Exportee.toJson]
    exact reads_map hd
  | star a s =>
    rw [Exportee.toJson]
    exact reads rfl <| reads (option?_str a) <| reads rfl rfl

theorem Decl.decode_toJsonList (ds : List Decl) {n : Nat}
    (h : Json.depthItems (Decl.toJsonList ds) < n) :
    Json.list? (Decl.decode n) (.arr (Decl.toJsonList ds)) = some (Decl.contentsList ds) := by
  cases ds with
  | nil => rfl
  | cons d ds =>
    simp only [Decl.toJsonList, Json.depthItems] at h
    exact list?_cons (Decl.decode_toJson d (by omega)) (Decl.decode_toJsonList ds (by omega))

end

theorem Decl.list?_toJson (ds : List Decl) :
    Json.list? Decl.ofJson? (.arr (Decl.toJsonList ds)) = some (Decl.contentsList ds) := by
  induction ds with
  | nil => rfl
  | cons d ds ih => exact list?_cons (d.decode_toJson (Nat.lt_succ_self _)) ih

/-- **Reading what was written for a file gives all that the file says.** -/
theorem exchange_keeps_file (f : File) : File.ofJson? f.toJson = some f.contents := by
  have hinfo := NodeInfo.ofJson?_toJson f.info
  have hdirectives : Json.list? Directive.ofJson? (ofList Directive.toJson f.directives) =
      some f.directives := list?_ofList_self Directive.ofJson?_toJson
  have hmembers := Decl.list?_toJson f.members
  have hplace := CodePath.ofJson?_toJson f.codePath
  -- First the value is taken apart into its fields, then they are read in their order.
  exact reads rfl <| reads hinfo <| reads hdirectives <| reads hmembers <| reads hplace rfl

end Ambient
