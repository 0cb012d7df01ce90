import Ambient.Proofs.Twin.Search
import Ambient.Scope.Answer

/-!
# Answers about twins

Twin questions get twin answers, in sessions whose memories hold twins (`answerWithin_twin`). Identities
come in at two places, the trail and the memory. Both only ask whether two of them are the same, which a
fair leeway keeps.

* `Session.Twin`: the same number of cuts, and memories that answer twin questions with twins.
* `resolving L`: from twin sessions the computations fail alike, or give results that are related and
  leave twin sessions.
-/

namespace Ambient

/-! ## Trails -/

/-- The steps take up the same name, or nodes whose identities correspond. -/
inductive Step.Twin (L : Leeway) : Step → Step → Prop
  | node {i j : NodeId} (h : L.id i j) : Step.Twin L (.node i) (.node j)
  | name {q : QIdent} : Step.Twin L (.name q) (.name q)

def Trail.Twin (L : Leeway) : Trail → Trail → Prop :=
  List.Forall₂ (Both (ScopeKey.Twin L) (Step.Twin L))

variable {q q' : Question} {α β : Type}

section
variable {L : Leeway}

theorem Both.eq_iff {γ δ : Type} {R : α → β → Prop} {S : γ → δ → Prop} {p q : α × γ} {p' q' : β × δ}
    (h : Both R S p p') (h' : Both R S q q')
    (hR : ∀ {a b : α} {c d : β}, R a c → R b d → (a = b ↔ c = d))
    (hS : ∀ {a b : γ} {c d : δ}, S a c → S b d → (a = b ↔ c = d)) : p = q ↔ p' = q' := by
  rw [Prod.ext_iff, Prod.ext_iff, hR h.fst h'.fst, hS h.snd h'.snd]

theorem Step.Twin.eq_iff (hL : L.Fair) {a b c d : Step} (h : a.Twin L b) (h' : c.Twin L d) :
    a = c ↔ b = d := by
  cases h with
  | node hi =>
    cases h' with
    | node hj => rw [Step.node.injEq, Step.node.injEq, hL.id_iff hi hj]
    | name => simp
  | name => cases h' <;> simp

theorem Trail.Twin.contains (hL : L.Fair) {a b : Trail} (h : Trail.Twin L a b) {p q : ScopeKey × Step}
    (hpq : Both (ScopeKey.Twin L) (Step.Twin L) p q) : a.contains p = b.contains q := by
  rw [List.contains_eq_any_beq, List.contains_eq_any_beq]
  refine List.Forall₂.any_eq h fun hx => ?_
  rw [Bool.eq_iff_iff, beq_iff_eq, beq_iff_eq]
  exact hpq.eq_iff hx (ScopeKey.Twin.eq_iff hL) (Step.Twin.eq_iff hL)

theorem Question.Twin.pair? (hL : L.Fair) {A : q.Answer → q'.Answer → Prop} (h : q.Twin L q' A) :
    Option.Rel (Both (ScopeKey.Twin L) (Step.Twin L)) q.pair? q'.pair? := by
  cases h with
  | name _ hs =>
    simp only [Question.pair?, hs.isSettled_eq]
    split
    · exact .none
    · exact .some ⟨hs.key hL, .name⟩
  | imported hs hi => exact .some ⟨hs.key hL, .node hi.id⟩
  | exported hs hh _ => exact .some ⟨hs.key hL, .node hh.info.id⟩
  | contribution hf | aliasKeys hf _ | ctorsOf hf _ => exact .some ⟨hf.scope.key hL, .node hf.decl.id⟩
  | members | keys | ctors => exact .none

theorem Question.Twin.unanswered {A : q.Answer → q'.Answer → Prop} (h : q.Twin L q' A) :
    A q.unanswered q'.unanswered := by
  cases h with
  | name | imported | exported | contribution | ctors | ctorsOf => exact .nil
  | members => exact .none
  | keys | aliasKeys => rfl

/-! ## Memories -/

/-- What is kept under identities that correspond is related. -/
def MemoTable.Twin (L : Leeway) {α : Type} (R : α → α → Prop) (a b : MemoTable α) : Prop :=
  ∀ k l : ScopeKey × NodeId, Both (ScopeKey.Twin L) L.id k l → Option.Rel R a[k]? b[l]?

structure Memo.Twin (L : Leeway) (m n : Memo) : Prop where
  imports : MemoTable.Twin L (List.Forall₂ (Binding.Twin L)) m.imports n.imports
  exports : MemoTable.Twin L (List.Forall₂ (Binding.Twin L)) m.exports n.exports
  keys : MemoTable.Twin L Eq m.keys n.keys

theorem MemoTable.Twin.insert (hL : L.Fair) {R : α → α → Prop} {a b : MemoTable α}
    (h : MemoTable.Twin L R a b) {k l : ScopeKey × NodeId} (hk : Both (ScopeKey.Twin L) L.id k l)
    {v w : α} (hv : R v w) :
    MemoTable.Twin L R (Std.HashMap.insert a k v) (Std.HashMap.insert b l w) := by
  intro k' l' hk'
  have heq : (k == k') = (l == l') := by
    rw [Bool.eq_iff_iff, beq_iff_eq, beq_iff_eq]
    exact hk.eq_iff hk' (ScopeKey.Twin.eq_iff hL) hL.id_iff
  rw [Std.HashMap.getElem?_insert, Std.HashMap.getElem?_insert, heq]
  split
  · exact .some hv
  · exact h k' l' hk'

theorem Memo.Twin.empty : Memo.Twin L {} {} := by
  constructor <;> intro k l _ <;> simp only [Std.HashMap.getElem?_empty] <;> exact .none

theorem Memo.Twin.find? (hL : L.Fair) {m n : Memo} (h : m.Twin L n) {A : q.Answer → q'.Answer → Prop}
    (hq : q.Twin L q' A) : Option.Rel A (m.find? q) (n.find? q') := by
  cases hq with
  | imported hs hi => exact h.imports _ _ ⟨hs.key hL, hi.id⟩
  | exported hs hh _ => exact h.exports _ _ ⟨hs.key hL, hh.info.id⟩
  | keys hs ht =>
    have hid := ht.id hL
    cases ht with
    | this => exact .none
    | _ => exact h.keys _ _ ⟨hs.key hL, hid⟩
  | _ => exact .none

theorem Memo.Twin.store (hL : L.Fair) {m n : Memo} (h : m.Twin L n) {A : q.Answer → q'.Answer → Prop}
    (hq : q.Twin L q' A) {a : q.Answer} {b : q'.Answer} (hab : A a b) :
    (m.store q a).Twin L (n.store q' b) := by
  cases hq with
  | imported hs hi =>
    exact { h with imports := MemoTable.Twin.insert hL h.imports ⟨hs.key hL, hi.id⟩ hab }
  | exported hs hh _ =>
    exact { h with exports := MemoTable.Twin.insert hL h.exports ⟨hs.key hL, hh.info.id⟩ hab }
  | keys hs ht =>
    have hid := ht.id hL
    cases ht with
    | this => exact h
    | _ => exact { h with keys := MemoTable.Twin.insert hL h.keys ⟨hs.key hL, hid⟩ hab }
  | _ => exact h

/-! ## Sessions -/

/-- The same number of cuts, and memories that hold twins. -/
structure Session.Twin (L : Leeway) (σ τ : Session) : Prop where
  cuts : σ.cuts = τ.cuts
  memo : Option.Rel (Memo.Twin L) σ.memo τ.memo

/-- From twin sessions the computations fail alike, or give related results and leave twin sessions. -/
def resolving (L : Leeway) : Pairing Resolve Resolve :=
  (Pairing.ofExcept Failure).stateT (Session.Twin L)

theorem resolving_get : (resolving L).rel (Session.Twin L) get get :=
  Pairing.get_rel _

theorem resolving_modify {f g : Session → Session}
    (hfg : ∀ {σ τ : Session}, σ.Twin L τ → (f σ).Twin L (g τ)) :
    (resolving L).rel Eq (modify f : Resolve Unit) (modify g) :=
  Pairing.modify_rel _ hfg

theorem resolving_throw {R : α → β → Prop} (e : Failure) :
    (resolving L).rel R (throw e : Resolve α) (throw e) :=
  fun _ _ _ => .error

theorem Resolve.afresh_twin {R : α → β → Prop} {x : Resolve α} {y : Resolve β}
    (h : (resolving L).rel R x y) : (resolving L).rel R (Resolve.afresh x) (Resolve.afresh y) := by
  refine .bind resolving_get fun σ τ hσ => ?_
  refine .bind (resolving_modify fun hs => ⟨rfl, hs.memo⟩) fun _ _ _ => ?_
  refine .bind h fun _ _ hab => ?_
  exact .bind (resolving_modify fun hs => ⟨hσ.cuts, hs.memo⟩) fun _ _ _ =>
    .pure hab

theorem Trail.Twin.extend (hL : L.Fair) {a b : Trail} (h : Trail.Twin L a b) {p q : ScopeKey × Step}
    (hpq : Both (ScopeKey.Twin L) (Step.Twin L) p q) :
    (resolving L).rel (Option.Rel (Trail.Twin L)) (a.extend p) (b.extend q) := by
  simp only [Trail.extend, h.contains hL hpq]
  split
  · exact .bind (resolving_modify fun hs => ⟨congrArg (· + 1) hs.cuts, hs.memo⟩)
      fun _ _ _ => .pure .none
  · exact .pure (.some (.cons hpq h))

/-- **Memories do not get twins out of step**: what is remembered about one is remembered about the
other. -/
theorem Resolve.memoized_twin (hL : L.Fair) {A : q.Answer → q'.Answer → Prop} (hq : q.Twin L q' A)
    {x : Resolve q.Answer} {y : Resolve q'.Answer} (h : (resolving L).rel A x y) :
    (resolving L).rel A (Resolve.memoized q x) (Resolve.memoized q' y) := by
  refine .bind resolving_get fun σ τ hσ => ?_
  have hfound := hσ.memo.map (f := (·.find? q)) (g := (·.find? q')) fun hm => hm.find? hL hq
  generalize σ.memo.map (fun memo => memo.find? q) = r at hfound ⊢
  generalize τ.memo.map (fun memo => memo.find? q') = r' at hfound ⊢
  cases hfound with
  | none => exact h
  | some hr =>
    cases hr with
    | some hab => exact .pure hab
    | none =>
      refine .bind resolving_get fun σ τ hσ => ?_
      refine .bind h fun a b hab => ?_
      refine .bind resolving_get fun σ' τ' hσ' => ?_
      simp only [hσ.cuts, hσ'.cuts]
      split
      · exact .bind
          (resolving_modify fun hs => ⟨hs.cuts, hs.memo.map fun hm => hm.store hL hq hab⟩)
          fun _ _ _ => .pure hab
      · exact .pure hab

/-! ## Answers -/

/-- **Twin questions get twin answers.** By induction on the number of questions inside each other. -/
theorem answerWithin_twin (hL : L.Fair) : ∀ (n : Nat) {trail trail' : Trail}, Trail.Twin L trail trail' →
    ∀ {q q' : Question} {A : q.Answer → q'.Answer → Prop}, q.Twin L q' A →
      (resolving L).rel A (answerWithin n trail q) (answerWithin n trail' q')
  | 0, _, _, _, _, _, _, _ => resolving_throw _
  | n + 1, _, _, htrail, q, q', _, hq => by
    have hsrch := hq.search hL
    rw [answerWithin, answerWithin]
    have hpair := hq.pair? hL
    generalize q.pair? = p at hpair ⊢
    generalize q'.pair? = p' at hpair ⊢
    cases hpair with
    | none => exact Resolve.memoized_twin hL hq (hsrch.run _ (answerWithin_twin hL n htrail))
    | some hp =>
      refine .bind (htrail.extend hL hp) fun _ _ hext => ?_
      cases hext with
      | none => exact .pure hq.unanswered
      | some hext => exact Resolve.memoized_twin hL hq (hsrch.run _ (answerWithin_twin hL n hext))

section
variable (hL : L.Fair) {s t : Scope} (hs : s.Twin L t) {trail trail' : Trail}
  (htrail : Trail.Twin L trail trail')
include hL hs

theorem Scope.lookup_twin (q : QIdent) :
    (resolving L).rel (List.Forall₂ (Found.Twin L)) (s.lookup q) (t.lookup q) := by
  refine Resolve.afresh_twin ?_
  rw [Scope.lookupWith, Scope.lookupWith, hs.searchBound_eq]
  exact answerWithin_twin hL _ .nil (.name Picker.blind_all hs)

include htrail

theorem Scope.lookupType_twin (q : QIdent) :
    (resolving L).rel (List.Forall₂ (Found.Twin L)) (s.lookupType q trail) (t.lookupType q trail') := by
  rw [Scope.lookupType, Scope.lookupType, Scope.lookupWith, Scope.lookupWith, hs.searchBound_eq]
  exact answerWithin_twin hL _ htrail (.name Picker.blind_types hs)

theorem Scope.membersOf_twin (q : QIdent) :
    (resolving L).rel (Option.Rel (Member.Twins L)) (s.membersOf q trail)
      (t.membersOf q trail') := by
  rw [Scope.membersOf, Scope.membersOf, hs.searchBound_eq]
  exact answerWithin_twin hL _ htrail (.members hs)

theorem Scope.evaluateKeys_twin {k l : Ty} (hk : k.Twin L l) :
    (resolving L).rel Eq (s.evaluateKeys k trail) (t.evaluateKeys l trail') := by
  rw [Scope.evaluateKeys, Scope.evaluateKeys, hs.searchBound_eq, Ty.links_twin k hk]
  have hq := Question.Twin.keys hs hk
  exact answerWithin_twin hL _ htrail hq

theorem Scope.ctorsOf_twin (q : QIdent) {ts us : List Ty} (hts : Ty.Twins L ts us) :
    (resolving L).rel (Member.Twins L) (s.ctorsOf q ts trail) (t.ctorsOf q us trail') := by
  rw [Scope.ctorsOf, Scope.ctorsOf, hs.searchBound_eq]
  exact answerWithin_twin hL _ htrail (.ctors hs hts)

end

end

end Ambient
