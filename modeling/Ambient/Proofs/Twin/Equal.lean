import Ambient.Proofs.Equal
import Ambient.Proofs.Twin.Same

/-!
# Twins are equal to the same trees

Equality of trees (`==`) does not look at identities and comments. So trees are equal exactly if they are
twins that may differ in these at will (`Ty.twin_of_beq`, `Ty.Twin.beq`); whether two trees are equal does
not change when each is replaced by a twin (`Ty.beq_twin`, `Decl.beq_twin`); and equality is an
equivalence.
-/

namespace Ambient

section
variable {L M : Leeway}

/-! ## Types, members and initialisers -/

theorem Ty.twin_of_beq {t u : Ty} (h : (t == u) = true) : t.Twin .any u := twin_of_same.1 t u h

theorem Member.twin_of_beq {m n : Member} (h : (m == n) = true) : m.Twin .any n :=
  twin_of_same.member m n h

theorem Ty.Twin.beq {t u : Ty} (h : t.Twin L u) : (t == u) = true :=
  same_of_same_twin.1 t t t.same_self u (.inl h)

theorem Member.Twin.beq {m n : Member} (h : m.Twin L n) : (m == n) = true :=
  same_of_same_twin.member m m m.same_self n (.inl h)

/-- If equality goes both ways and passes to twins, then twins are equal to the same. -/
theorem beq_eq_of_twin {α : Type} [BEq α] {R S : α → α → Prop}
    (hsymm : ∀ a b : α, (a == b) = true → (b == a) = true)
    (hR : ∀ a b : α, (a == b) = true → ∀ c, R b c ∨ R c b → (a == c) = true)
    (hS : ∀ a b : α, (a == b) = true → ∀ c, S b c ∨ S c b → (a == c) = true) {a a' b b' : α}
    (ha : R a a') (hb : S b b') : (a == b) = (a' == b') := by
  rw [Bool.eq_iff_iff]
  constructor <;> intro h
  · exact hsymm _ _ (hR _ _ (hsymm _ _ (hS _ _ h _ (.inl hb))) _ (.inl ha))
  · exact hsymm _ _ (hR _ _ (hsymm _ _ (hS _ _ h _ (.inr hb))) _ (.inr ha))

theorem Ty.beq_twin {t t' u u' : Ty} (ht : t.Twin L t') (hu : u.Twin M u') : (t == u) = (t' == u') :=
  beq_eq_of_twin (same_symm (L := L)).1 same_of_same_twin.1 same_of_same_twin.1 ht hu

theorem TypeParam.beq_twin {p p' q q' : TypeParam} (hp : p.Twin L p') (hq : q.Twin M q') :
    (p == q) = (p' == q') :=
  beq_eq_of_twin (same_symm (L := L)).2.1 same_of_same_twin.2.1 same_of_same_twin.2.1 hp hq

theorem Member.beq_twin {m m' n n' : Member} (hm : m.Twin L m') (hn : n.Twin M n') :
    (m == n) = (m' == n') :=
  beq_eq_of_twin (same_symm (L := L)).member same_of_same_twin.member same_of_same_twin.member hm hn

theorem Expr.beq_twin {e e' f f' : Expr} (he : e.Twin L e') (hf : f.Twin M f') : (e == f) = (e' == f') :=
  beq_eq_of_twin (same_symm (L := L)).expr same_of_same_twin.expr same_of_same_twin.expr he hf

theorem Signature.beq_twin {s s' r r' : Signature} (hs : s.Twin L s') (hr : r.Twin M r') :
    (s == r) = (s' == r') :=
  beq_eq_of_twin (same_symm (L := L)).sig same_of_same_twin.sig same_of_same_twin.sig hs hr

/-- A relation whose equals are equal to the same elements is an equivalence if it is reflexive. -/
theorem equivBEq_of_congr {α : Type} [BEq α] (hrefl : ∀ a : α, (a == a) = true)
    (hcongr : ∀ {a a' b b' : α}, (a == a') = true → (b == b') = true → (a == b) = (a' == b')) :
    EquivBEq α where
  rfl := hrefl _
  symm {a b} hab := by rw [← hcongr hab (hrefl a), hrefl]
  trans {a b _} hab hbc := by rw [← hcongr (hrefl a) hbc, hab]

instance Ty.equivBEq : EquivBEq Ty :=
  equivBEq_of_congr Ty.same_self fun ht hu => Ty.beq_twin (Ty.twin_of_beq ht) (Ty.twin_of_beq hu)

instance Member.equivBEq : EquivBEq Member :=
  equivBEq_of_congr Member.same_self fun hm hn =>
    Member.beq_twin (Member.twin_of_beq hm) (Member.twin_of_beq hn)

/-! ## Declarations and files -/

theorem list_beq_twin {α : Type} [BEq α] {R S : α → α → Prop} {as as' bs bs' : List α}
    (h : ∀ {a a' b b'}, R a a' → S b b' → (a == b) = (a' == b')) (has : List.Forall₂ R as as')
    (hbs : List.Forall₂ S bs bs') : (as == bs) = (as' == bs') := by
  induction has generalizing bs bs' with
  | nil => cases hbs <;> rfl
  | cons ha _ ih =>
    cases hbs with
    | nil => rfl
    | cons hb hbs => rw [List.cons_beq_cons, List.cons_beq_cons, h ha hb, ih hbs]

theorem option_beq_twin {α : Type} [BEq α] {R S : α → α → Prop} {a a' b b' : Option α}
    (h : ∀ {a a' b b'}, R a a' → S b b' → (a == b) = (a' == b')) (ha : Option.Rel R a a')
    (hb : Option.Rel S b b') : (a == b) = (a' == b') := by
  cases ha with
  | none => cases hb <;> rfl
  | some ha =>
    cases hb with
    | none => rfl
    | some hb => exact h ha hb

theorem EnumMember.beq_twin {a a' b b' : EnumMember} (ha : a.Twin L a') (hb : b.Twin M b') :
    (a == b) = (a' == b') := by
  change a.same b = a'.same b'
  rw [EnumMember.same, EnumMember.same, ha.name, hb.name, option_beq_twin Expr.beq_twin ha.expr hb.expr]

theorem ClassDecl.Twin.same_eq {c c' d d' : ClassDecl} (hc : c.Twin L c') (hd : d.Twin M d') :
    c.same d = c'.same d' := by
  rw [ClassDecl.same, ClassDecl.same, hc.declared, hd.declared, hc.isAbstract, hd.isAbstract, hc.name,
    hd.name, list_beq_twin TypeParam.beq_twin hc.tparams hd.tparams,
    option_beq_twin Ty.beq_twin hc.parent hd.parent,
    list_beq_twin Ty.beq_twin hc.implements hd.implements,
    list_beq_twin Member.beq_twin hc.members hd.members, hc.jsLocation, hd.jsLocation, hc.codePath,
    hd.codePath]

theorem InterfaceDecl.Twin.same_eq {i i' j j' : InterfaceDecl} (hi : i.Twin L i') (hj : j.Twin M j') :
    i.same j = i'.same j' := by
  rw [InterfaceDecl.same, InterfaceDecl.same, hi.declared, hj.declared, hi.name, hj.name,
    list_beq_twin TypeParam.beq_twin hi.tparams hj.tparams,
    list_beq_twin Ty.beq_twin hi.inheritance hj.inheritance,
    list_beq_twin Member.beq_twin hi.members hj.members, hi.codePath, hj.codePath]

theorem EnumDecl.Twin.same_eq {e e' f f' : EnumDecl} (he : e.Twin L e') (hf : f.Twin M f') :
    e.same f = e'.same f' := by
  rw [EnumDecl.same, EnumDecl.same, he.declared, hf.declared, he.isConst, hf.isConst, he.name, hf.name,
    list_beq_twin EnumMember.beq_twin he.members hf.members, he.isValue, hf.isValue,
    option_beq_twin Ty.beq_twin he.exportedFrom hf.exportedFrom, he.jsLocation, hf.jsLocation,
    he.codePath, hf.codePath]

theorem VarDecl.Twin.same_eq {v v' w w' : VarDecl} (hv : v.Twin L v') (hw : w.Twin M w') :
    v.same w = v'.same w' := by
  rw [VarDecl.same, VarDecl.same, hv.declared, hw.declared, hv.readonly, hw.readonly, hv.name, hw.name,
    option_beq_twin Ty.beq_twin hv.tpe hw.tpe, option_beq_twin Expr.beq_twin hv.expr hw.expr,
    hv.jsLocation, hw.jsLocation, hv.codePath, hw.codePath]

theorem FunctionDecl.Twin.same_eq {f f' g g' : FunctionDecl} (hf : f.Twin L f') (hg : g.Twin M g') :
    f.same g = f'.same g' := by
  rw [FunctionDecl.same, FunctionDecl.same, hf.declared, hg.declared, hf.name, hg.name,
    Signature.beq_twin hf.sig hg.sig, hf.jsLocation, hg.jsLocation, hf.codePath, hg.codePath]

theorem AliasDecl.Twin.same_eq {a a' b b' : AliasDecl} (ha : a.Twin L a') (hb : b.Twin M b') :
    a.same b = a'.same b' := by
  rw [AliasDecl.same, AliasDecl.same, ha.declared, hb.declared, ha.name, hb.name,
    list_beq_twin TypeParam.beq_twin ha.tparams hb.tparams, Ty.beq_twin ha.target hb.target, ha.codePath,
    hb.codePath]

theorem ImportDecl.Twin.same_eq {i i' j j' : ImportDecl} (hi : i.Twin L i') (hj : j.Twin M j') :
    i.same j = i'.same j' := by
  rw [ImportDecl.same, ImportDecl.same, hi.typeOnly, hj.typeOnly, hi.imported, hj.imported, hi.source,
    hj.source]

theorem SpaceHead.Twin.same_eq {h h' g g' : SpaceHead} (hh : h.Twin L h') (hg : g.Twin M g') :
    h.same g = h'.same g' := by
  rw [SpaceHead.same, SpaceHead.same, hh.declared, hg.declared, hh.name, hg.name, hh.codePath,
    hg.codePath, hh.jsLocation, hg.jsLocation]

theorem AugmentHead.Twin.same_eq {h h' g g' : AugmentHead} (hh : h.Twin L h') (hg : g.Twin M g') :
    h.same g = h'.same g' := by
  rw [AugmentHead.same, AugmentHead.same, hh.name, hg.name, hh.codePath, hg.codePath, hh.jsLocation,
    hg.jsLocation]

theorem GlobalHead.Twin.same_eq {h h' g g' : GlobalHead} (hh : h.Twin L h') (hg : g.Twin M g') :
    h.same g = h'.same g' := by
  rw [GlobalHead.same, GlobalHead.same, hh.declared, hg.declared, hh.codePath, hg.codePath]

theorem ExportHead.Twin.same_eq {h h' g g' : ExportHead} (hh : h.Twin L h') (hg : g.Twin M g') :
    h.same g = h'.same g' := by
  rw [ExportHead.same, ExportHead.same, hh.typeOnly, hg.typeOnly, hh.kind, hg.kind]

theorem same_of_ctorIdx_ne {α : Type} (same : α → α → Bool) (idx : α → Nat)
    (hsame : ∀ {a b}, same a b = true → idx a = idx b) {a a' b b' : α} (ha : idx a = idx a')
    (hb : idx b = idx b') (h : idx a ≠ idx b) : same a b = same a' b' := by
  rw [Bool.eq_false_iff.2 fun hs => h (hsame hs),
    Bool.eq_false_iff.2 fun hs => h (ha.trans ((hsame hs).trans hb.symm))]

theorem Decl.ctorIdx_eq_of_same {d e : Decl} (h : d.same e = true) : d.ctorIdx = e.ctorIdx := by
  unfold Decl.same at h
  split at h <;> first | rfl | cases h

theorem Decl.Twin.ctorIdx_eq {d e : Decl} (h : d.Twin L e) : d.ctorIdx = e.ctorIdx := by
  cases h <;> rfl

mutual

theorem Decl.same_twin (d : Decl) {d' e e' : Decl} (hd : d.Twin L d') (he : e.Twin M e') :
    d.same e = d'.same e' := by
  by_cases hidx : d.ctorIdx = e.ctorIdx
  case neg =>
    exact same_of_ctorIdx_ne Decl.same Decl.ctorIdx Decl.ctorIdx_eq_of_same
      hd.ctorIdx_eq he.ctorIdx_eq hidx
  cases d with
  | space h ms | module h ms | augmentation h ms | global h ms =>
    have ih := @Decl.sameList_twin ms
    cases hd
    next hh hms =>
      cases he <;> cases hidx
      next hg hns => simp only [Decl.same, hh.same_eq hg, ih hms hns]
  | cls | iface | enum | var | function | typeAlias | imports =>
    cases hd
    next hx =>
      cases he <;> cases hidx
      next hy => simp only [Decl.same, hx.same_eq hy]
  | exports h x =>
    have ih := @Exportee.same_twin x
    cases hd with | exports hh hx =>
      cases he <;> cases hidx
      next hg hy => simp only [Decl.same, hh.same_eq hg, ih hx hy]
  | exportAs a =>
    cases hd with | exportAs ha =>
      cases he <;> cases hidx
      next ha' => simp only [Decl.same, ha.name, ha'.name]
termination_by structural d

theorem Exportee.same_twin (x : Exportee) {x' y y' : Exportee} (hx : x.Twin L x') (hy : y.Twin M y') :
    x.same y = x'.same y' := by
  cases x with
  | names | star => cases hx; cases hy <;> simp only [Exportee.same]
  | inline d =>
    have ih := @Decl.same_twin d
    cases hx with | inline hd => cases hy with
      | inline he => simp only [Exportee.same, ih hd he]
      | _ => simp only [Exportee.same]
termination_by structural x

theorem Decl.sameList_twin (ds : List Decl) {ds' es es' : List Decl}
    (hds : Decl.Twins L ds ds') (hes : List.Forall₂ (Decl.Twin M) es es') :
    Decl.sameList ds es = Decl.sameList ds' es' := by
  cases ds with
  | nil => cases hds; cases hes <;> simp only [Decl.sameList]
  | cons d ds =>
    have ih₁ := @Decl.same_twin d
    have ih₂ := @Decl.sameList_twin ds
    cases hds with | cons hd hds => cases hes with
      | nil => simp only [Decl.sameList]
      | cons he hes => simp only [Decl.sameList, ih₁ hd he, ih₂ hds hes]
termination_by structural ds

end

theorem Decl.beq_twin {d d' e e' : Decl} (hd : d.Twin L d') (he : e.Twin M e') : (d == e) = (d' == e') :=
  Decl.same_twin d hd he

end

end Ambient
