import Ambient.Proofs.Search
import Std.Data.HashMap.Lemmas

/-!
# What the memory holds

A question has an ideal answer if its search comes to an end with nothing remembered and nothing
given up (`idealAnswer`). It does not depend on the trail, so it is what a memory may hold.

* A `Realm` is a set of questions that searches do not leave. In a realm where no two questions share
  a place in the memory (`Realm.Apart`), a memory of ideal answers stays one whatever is asked, on
  whatever trail (`Session.Faithful`, `answerWithin_after`).
* An answer that was found without a cut is ideal (`After.ideal`).
-/

namespace Ambient

/-- A set of questions that searches do not leave, with what their answers are like. -/
structure Realm where
  asked : Question → Prop
  given : (q : Question) → q.Answer → Prop
  search : ∀ q, asked q → q.search.Ensures asked given (given q)
  unanswered : ∀ q, asked q → given q q.unanswered

def Realm.inter (D E : Realm) : Realm where
  asked q := D.asked q ∧ E.asked q
  given q a := D.given q a ∧ E.given q a
  search q hq := (D.search q hq.1).and (E.search q hq.2)
  unanswered q hq := ⟨D.unanswered q hq.1, E.unanswered q hq.2⟩

/-! ## Ideal answers -/

/-- The answer to a question if nothing is remembered or given up, with at most the given number of
questions inside each other. -/
def idealAnswer : Nat → (q : Question) → Option q.Answer
  | 0, _ => none
  | n + 1, q => q.search.run (idealAnswer n)

variable {n m : Nat} {q : Question} {D : Realm} {s : Scope} {k : ScopeKey × NodeId} {σ : Session}
  {t : Ty}

section
variable {α : Type} {f g : (q : Question) → Option q.Answer}

theorem run_ask_some {next : q.Answer → Search α} {r : α} :
    (Search.ask q next).run f = some r ↔ ∃ a, f q = some a ∧ (next a).run f = some r :=
  Option.bind_eq_some_iff

theorem run_some_mono (h : ∀ q a, f q = some a → g q = some a) {p : Search α} {r : α}
    (hr : p.run f = some r) : p.run g = some r := by
  induction p with
  | done a => exact hr
  | ask q next ih =>
    obtain ⟨a, ha, hn⟩ := run_ask_some.1 hr
    exact run_ask_some.2 ⟨a, h q a ha, ih a hn⟩

theorem Search.Ensures.run_some {asked : Question → Prop}
    {given : (q : Question) → q.Answer → Prop} {post : α → Prop} {p : Search α}
    (hp : p.Ensures asked given post) (h : ∀ q a, asked q → f q = some a → given q a) {r : α}
    (hr : p.run f = some r) : post r := by
  induction p with
  | done a =>
    cases hr
    exact hp
  | ask q next ih =>
    obtain ⟨a, ha, hn⟩ := run_ask_some.1 hr
    exact ih a (hp.2 a (h q a hp.1 ha)) hn

end

theorem idealAnswer_succ : ∀ {n : Nat} {q : Question} {a : q.Answer},
    idealAnswer n q = some a → idealAnswer (n + 1) q = some a
  | 0, _, _, h => by simp [idealAnswer] at h
  | _ + 1, _, _, h => run_some_mono (fun _ _ => idealAnswer_succ) h

theorem idealAnswer_mono {a : q.Answer} (h : idealAnswer n q = some a) (hnm : n ≤ m) :
    idealAnswer m q = some a := by
  induction hnm with
  | refl => exact h
  | step _ ih => exact idealAnswer_succ ih

theorem idealAnswer_unique {a b : q.Answer} (ha : idealAnswer n q = some a)
    (hb : idealAnswer m q = some b) : a = b := by
  have ha' := idealAnswer_mono ha (Nat.le_max_left n m)
  have hb' := idealAnswer_mono hb (Nat.le_max_right n m)
  exact Option.some.inj (ha'.symm.trans hb')

theorem idealAnswer_none (h : idealAnswer m q = none) (hnm : n ≤ m) : idealAnswer n q = none := by
  cases ha : idealAnswer n q with
  | none => rfl
  | some a => rw [idealAnswer_mono ha hnm] at h; cases h

theorem exists_least_ideal {a : q.Answer} (h : idealAnswer n q = some a) :
    ∃ m < n, idealAnswer (m + 1) q = some a ∧ idealAnswer m q = none := by
  induction n with
  | zero => simp [idealAnswer] at h
  | succ n ih =>
    cases hb : idealAnswer n q with
    | none => exact ⟨n, Nat.lt_succ_self n, h, hb⟩
    | some b =>
      obtain rfl := idealAnswer_unique h hb
      obtain ⟨m, hm, h₁, h₂⟩ := ih hb
      exact ⟨m, Nat.lt_succ_of_lt hm, h₁, h₂⟩

theorem Realm.given_of_ideal (D : Realm) : ∀ {n : Nat} {q : Question} {a : q.Answer},
    D.asked q → idealAnswer n q = some a → D.given q a
  | 0, _, _, _, h => by simp [idealAnswer] at h
  | _ + 1, q, _, hq, h => (D.search q hq).run_some (fun _ _ hq' => D.given_of_ideal hq') h

/-! ## Places in the memory -/

/-- A place in the memory. -/
inductive Slot where
  | imports (key : ScopeKey × NodeId)
  | exports (key : ScopeKey × NodeId)
  | keys (key : ScopeKey × NodeId)

/-- Where the memory keeps the answer to a question. -/
def Question.slot? : Question → Option Slot
  | .imported s i => some (.imports (s.key, i.id))
  | .exported s h _ => some (.exports (s.key, h.info.id))
  | .keys _ .this => none
  | .keys s t => some (.keys (s.key, t.id))
  | _ => none

theorem Question.slot?_keys (ht : t ≠ .this) :
    (Question.keys s t).slot? = some (.keys (s.key, t.id)) := by
  cases t <;> first | rfl | exact absurd rfl ht

theorem Question.eq_imported_of_slot? (h : q.slot? = some (.imports k)) :
    ∃ s i, q = .imported s i ∧ k = (s.key, i.id) := by
  cases q with
  | imported s i => cases h; exact ⟨s, i, rfl, rfl⟩
  | keys s t => cases t <;> cases h
  | _ => cases h

theorem Question.eq_exported_of_slot? (h : q.slot? = some (.exports k)) :
    ∃ s x e, q = .exported s x e ∧ k = (s.key, x.info.id) := by
  cases q with
  | exported s x e => cases h; exact ⟨s, x, e, rfl, rfl⟩
  | keys s t => cases t <;> cases h
  | _ => cases h

theorem Question.eq_keys_of_slot? (h : q.slot? = some (.keys k)) :
    ∃ s t, q = .keys s t ∧ k = (s.key, t.id) := by
  cases q with
  | keys s t => cases t <;> cases h <;> exact ⟨s, _, rfl, rfl⟩
  | _ => cases h

theorem Memo.find?_keys (m : Memo) (ht : t ≠ .this) : m.find? (.keys s t) = m.keys[(s.key, t.id)]? := by
  cases t <;> first | rfl | exact absurd rfl ht

theorem Memo.store_keys (m : Memo) (ht : t ≠ .this) (ks : Option (List Ident)) :
    m.store (.keys s t) ks = { m with keys := m.keys.insert (s.key, t.id) ks } := by
  cases t <;> first | rfl | exact absurd rfl ht

theorem Memo.find?_keys_congr {m m' : Memo} (h : m.keys = m'.keys) (s : Scope) (t : Ty) :
    m.find? (.keys s t) = m'.find? (.keys s t) := by
  cases t <;> simp only [Memo.find?, h]

theorem getElem?_insert_cases {α : Type} {t : MemoTable α} {k' : ScopeKey × NodeId} {a b : α}
    (h : (t.insert k a)[k']? = some b) : t[k']? = some b ∨ (k = k' ∧ a = b) := by
  rw [Std.HashMap.getElem?_insert] at h
  split at h
  · rename_i hk
    exact .inr ⟨eq_of_beq hk, Option.some.inj h⟩
  · exact .inl h

theorem Memo.find?_store {m : Memo} {q' : Question} {a : q.Answer} {b : q'.Answer}
    (h : (m.store q a).find? q' = some b) :
    m.find? q' = some b ∨ (q.slot? = q'.slot? ∧ q.slot?.isSome ∧ HEq a b) := by
  cases q with
  | imported s i =>
    cases q' with
    | imported s' i' =>
      obtain h | ⟨hk, rfl⟩ := getElem?_insert_cases h
      · exact .inl h
      · exact .inr ⟨by simp only [Question.slot?, hk], rfl, HEq.rfl⟩
    | keys s' t' => exact .inl ((Memo.find?_keys_congr (by rfl) s' t').symm.trans h)
    | _ => exact .inl h
  | exported s x e =>
    cases q' with
    | exported s' x' e' =>
      obtain h | ⟨hk, rfl⟩ := getElem?_insert_cases h
      · exact .inl h
      · exact .inr ⟨by simp only [Question.slot?, hk], rfl, HEq.rfl⟩
    | keys s' t' => exact .inl ((Memo.find?_keys_congr (by rfl) s' t').symm.trans h)
    | _ => exact .inl h
  | keys s t =>
    by_cases ht : t = .this
    · subst ht
      exact .inl h
    rw [Memo.store_keys m ht] at h
    cases q' with
    | keys s' t' =>
      by_cases ht' : t' = .this
      · subst ht'
        exact .inl h
      rw [Memo.find?_keys _ ht'] at h ⊢
      obtain h | ⟨hk, rfl⟩ := getElem?_insert_cases h
      · exact .inl h
      · exact .inr ⟨by rw [Question.slot?_keys ht, Question.slot?_keys ht', hk],
          by rw [Question.slot?_keys ht]; rfl, HEq.rfl⟩
    | _ => exact .inl h
  | _ => exact .inl h

/-- No two questions of the realm share a place in the memory. -/
def Realm.Apart (D : Realm) : Prop :=
  ∀ q q', D.asked q → D.asked q' → q.slot? = q'.slot? → q.slot?.isSome → q = q'

theorem Realm.Apart.inter (h : D.Apart) (E : Realm) : (D.inter E).Apart :=
  fun q q' hq hq' => h q q' hq.1 hq'.1

/-! ## Memories of ideal answers -/

/-- The memory holds ideal answers to the questions of the realm. -/
def Memo.Faithful (D : Realm) (m : Memo) : Prop :=
  ∀ q a, D.asked q → m.find? q = some a → ∃ n, idealAnswer n q = some a

/-- If the session has a memory, then it tells the questions of the realm apart and holds ideal
answers to them. -/
def Session.Faithful (D : Realm) (σ : Session) : Prop :=
  ∀ m, σ.memo = some m → D.Apart ∧ m.Faithful D

theorem Session.faithful_of_none (D : Realm) (h : σ.memo = none) : σ.Faithful D :=
  fun m hm => by rw [h] at hm; cases hm

theorem Memo.faithful_empty (D : Realm) : Memo.Faithful D {} := by
  intro q a _ h
  cases q with
  | imported s i | exported s x e => simp [Memo.find?] at h
  | keys s t => cases t <;> simp [Memo.find?] at h
  | _ => cases h

theorem Session.faithful_fresh (h : D.Apart) (remember : Bool) :
    Session.Faithful D { memo := if remember then some {} else none } := by
  cases remember with
  | false => exact Session.faithful_of_none D rfl
  | true =>
    rintro m hm
    cases hm
    exact ⟨h, Memo.faithful_empty D⟩

theorem Session.Faithful.inter (h : σ.Faithful D) (E : Realm) : σ.Faithful (D.inter E) := fun m hm =>
  ⟨(h m hm).1.inter E, fun q a hq ha => (h m hm).2 q a hq.1 ha⟩

theorem Memo.Faithful.store (hA : D.Apart) {m : Memo} (hm : m.Faithful D) (hq : D.asked q)
    {a : q.Answer} (ha : idealAnswer n q = some a) : (m.store q a).Faithful D := by
  intro q' b hq' hb
  obtain hb | ⟨hs, hi, hab⟩ := Memo.find?_store hb
  · exact hm q' b hq' hb
  · obtain rfl := hA q q' hq hq' hs hi
    obtain rfl := eq_of_heq hab
    exact ⟨n, ha⟩

/-- How a session may change in a run: cuts are only added, the memory stays faithful, and if there
was no cut then the result is an ideal one. -/
structure After (D : Realm) (σ σ' : Session) (ideal : Prop) : Prop where
  cuts : σ.cuts ≤ σ'.cuts
  faithful : σ'.Faithful D
  memo : σ'.memo.isSome = σ.memo.isSome
  ideal : σ'.cuts = σ.cuts → ideal

theorem After.keep {σ' : Session} {a : q.Answer} (hq : D.asked q)
    (h : After D σ σ' (∃ m, idealAnswer m q = some a)) :
    After D σ (σ'.keep σ.cuts q a) (∃ m, idealAnswer m q = some a) := by
  unfold Session.keep
  split
  · rename_i hc
    obtain ⟨m, hm⟩ := h.ideal hc
    refine ⟨h.cuts, fun μ hμ => ?_, ?_, fun _ => ⟨m, hm⟩⟩
    · obtain ⟨μ', hμ', rfl⟩ := Option.map_eq_some_iff.1 hμ
      obtain ⟨hA, hμ'⟩ := h.faithful μ' hμ'
      exact ⟨hA, hμ'.store hA hq hm⟩
    · rw [Option.isSome_map, h.memo]
  · exact h

/-- A way to answer the questions of the realm that leaves the memory faithful. -/
def AnswersWell (D : Realm) (answer : (q : Question) → Resolve q.Answer) : Prop :=
  ∀ q σ a σ', D.asked q → σ.Faithful D → (answer q).run σ = .ok (a, σ') →
    D.given q a ∧ After D σ σ' (∃ m, idealAnswer m q = some a)

/-- A search whose questions are answered well: its result is as it ensures, and ideal if nothing
was cut. The number of questions inside each other is the largest of those of the answers. -/
theorem AnswersWell.run {answer : (q : Question) → Resolve q.Answer} (hans : AnswersWell D answer)
    {α : Type} {post : α → Prop} {p : Search α} (hp : p.Ensures D.asked D.given post) {σ' : Session}
    {r : α} (hσ : σ.Faithful D) (h : (p.run answer).run σ = .ok (r, σ')) :
    post r ∧ After D σ σ' (∃ m, p.run (idealAnswer m) = some r) := by
  induction p generalizing σ with
  | done a =>
    cases h
    exact ⟨hp, Nat.le_refl _, hσ, rfl, fun _ => ⟨0, rfl⟩⟩
  | ask q next ih =>
    obtain ⟨a, σ₁, ha, hn⟩ := run_ask_ok.1 h
    obtain ⟨hg, h₁⟩ := hans q σ a σ₁ hp.1 hσ ha
    obtain ⟨hr, h₂⟩ := ih a (hp.2 a hg) h₁.faithful hn
    refine ⟨hr, Nat.le_trans h₁.cuts h₂.cuts, h₂.faithful, h₂.memo.trans h₁.memo, fun hc => ?_⟩
    have hle₁ := h₁.cuts
    have hle₂ := h₂.cuts
    obtain ⟨m₁, hm₁⟩ := h₁.ideal (by omega)
    obtain ⟨m₂, hm₂⟩ := h₂.ideal (by omega)
    refine ⟨max m₁ m₂, run_ask_some.2 ⟨a, idealAnswer_mono hm₁ (Nat.le_max_left _ _), ?_⟩⟩
    exact run_some_mono (fun _ _ h => idealAnswer_mono h (Nat.le_max_right _ _)) hm₂

/-- **Whatever is asked leaves the memory faithful**, and an answer found without a cut is ideal. -/
theorem answerWithin_after (D : Realm) :
    ∀ (n : Nat) (T : Trail), AnswersWell D (answerWithin n T)
  | 0, _, _, _, _, _, _, _, h => by cases h
  | n + 1, T, q, σ, a, σ', hq, hσ, h => by
    by_cases hcut : q.CutOn T
    · rw [answerWithin_cut hcut] at h
      cases h
      exact ⟨D.unanswered q hq, Nat.le_succ _, hσ, rfl, fun hc => absurd hc (Nat.succ_ne_self _)⟩
    rw [answerWithin_open hcut] at h
    have hrun : ∀ {b σ₁}, (q.search.run (answerWithin n (q.trail T))).run σ = .ok (b, σ₁) →
        D.given q b ∧ After D σ σ₁ (∃ m, idealAnswer m q = some b) := by
      intro b σ₁ hb
      obtain ⟨hg, ha⟩ := (answerWithin_after D n (q.trail T)).run (D.search q hq) hσ hb
      refine ⟨hg, ha.cuts, ha.faithful, ha.memo, fun hc => ?_⟩
      obtain ⟨m, hm⟩ := ha.ideal hc
      exact ⟨m + 1, hm⟩
    cases hm : σ.memo with
    | none =>
      rw [memoized_of_none hm] at h
      exact hrun h
    | some m =>
      cases hf : m.find? q with
      | some b =>
        rw [memoized_of_hit hm hf] at h
        cases h
        obtain ⟨k, hk⟩ := (hσ m hm).2 q a hq hf
        exact ⟨D.given_of_ideal hq hk, Nat.le_refl _, hσ, rfl, fun _ => ⟨k, hk⟩⟩
      | none =>
        rw [memoized_of_miss hm hf] at h
        obtain ⟨⟨b, σ₁⟩, hb, h⟩ := map_eq_ok.1 h
        cases h
        obtain ⟨hg, ha⟩ := hrun hb
        exact ⟨hg, ha.keep hq⟩

end Ambient
