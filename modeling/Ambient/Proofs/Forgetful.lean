import Ambient.Proofs.Meaning

/-!
# Answers without a memory

Without a memory the answer to a question only depends on the trail (`answerOn`): the count of cuts does
not matter (`answerWithin_gives`). So such answers can be compared without their sessions.

* `Unmixed.answerOn_eq`: a question that is given up for nothing else gets this answer with a memory, too.
* `answerOn_congr_trail`: pairs that are not taken up again do not matter.
* `Scope.denotes_of_answerOn`: so a search that is after something else finds what a name denotes.
-/

namespace Ambient

/-- The answer to a question on a trail, without a memory and with at most the given number of questions
inside each other. -/
def answerOn : Nat → Trail → (q : Question) → Option q.Answer
  | 0, _, _ => none
  | n + 1, T, q =>
    if q.pair?.any T.contains then some q.unanswered else q.search.run (answerOn n (q.trail T))

variable {n : Nat} {q : Question} {D : Realm} {s : Scope} {σ : Session} {T : Trail}

theorem Question.cutOn_iff : q.CutOn T ↔ q.pair?.any T.contains = true := by
  simp [CutOn, Option.any_eq_true, and_comm]

theorem answerOn_cut (h : q.CutOn T) (n : Nat) : answerOn (n + 1) T q = some q.unanswered := by
  rw [answerOn, if_pos (Question.cutOn_iff.1 h)]

theorem answerOn_open (h : ¬ q.CutOn T) (n : Nat) :
    answerOn (n + 1) T q = q.search.run (answerOn n (q.trail T)) := by
  rw [answerOn, if_neg fun hc => h (Question.cutOn_iff.2 hc)]

/-- The computation gives that result, or runs out of questions if there is none. -/
def Resolve.Gives {α : Type} (x : Resolve α) (r : Option α) : Prop :=
  ∀ σ : Session, σ.memo = none → match r with
    | some a => ∃ σ', σ'.memo = none ∧ x.run σ = .ok (a, σ')
    | none => x.run σ = .error .exhausted

theorem Search.run_gives {answer : (q : Question) → Resolve q.Answer}
    {answer' : (q : Question) → Option q.Answer} (h : ∀ q, (answer q).Gives (answer' q)) {α : Type}
    (p : Search α) : (p.run answer).Gives (p.run answer') := by
  induction p with
  | done a => exact fun σ hσ => ⟨σ, hσ, rfl⟩
  | ask q next ih =>
    intro σ hσ
    have hq := h q σ hσ
    simp only [Search.run, StateT.run_bind]
    cases hq' : answer' q with
    | none =>
      rw [hq'] at hq
      rw [hq]
      rfl
    | some a =>
      rw [hq'] at hq
      obtain ⟨σ₁, hσ₁, hrun⟩ := hq
      rw [hrun]
      exact ih a σ₁ hσ₁

/-- **Without a memory, a question gets the answer that it has on the trail.** -/
theorem answerWithin_gives : ∀ (n : Nat) (T : Trail) (q : Question),
    (answerWithin n T q).Gives (answerOn n T q)
  | 0, _, _ => fun _ _ => rfl
  | n + 1, T, q => by
    intro σ hσ
    by_cases hcut : q.CutOn T
    · rw [answerOn_cut hcut]
      exact ⟨{ σ with cuts := σ.cuts + 1 }, hσ, answerWithin_cut hcut n σ⟩
    · rw [answerOn_open hcut, answerWithin_open hcut, memoized_of_none hσ]
      exact Search.run_gives (fun q' => answerWithin_gives n (q.trail T) q') q.search σ hσ

theorem answerOn_of_run {a : q.Answer} {σ' : Session} (hσ : σ.memo = none)
    (h : (answerWithin n T q).run σ = .ok (a, σ')) : answerOn n T q = some a := by
  have hgives := answerWithin_gives n T q σ hσ
  cases hq : answerOn n T q with
  | none =>
    rw [hq, h] at hgives
    cases hgives
  | some b =>
    rw [hq] at hgives
    obtain ⟨σ₁, -, hrun⟩ := hgives
    cases h.symm.trans hrun
    rfl

theorem run_of_answerOn {a : q.Answer} (h : answerOn n T q = some a) (hσ : σ.memo = none) :
    ∃ σ', σ'.memo = none ∧ (answerWithin n T q).run σ = .ok (a, σ') := by
  have hgives := answerWithin_gives n T q σ hσ
  rw [h] at hgives
  exact hgives

theorem Realm.given_of_answerOn (hq : D.asked q) {a : q.Answer} (h : answerOn n T q = some a) :
    D.given q a := by
  obtain ⟨σ', -, hrun⟩ := run_of_answerOn h (σ := {}) rfl
  exact (answerWithin_after D n T q _ a σ' hq (Session.faithful_of_none D rfl) hrun).1

theorem answerOn_mono {m : Nat} (hnm : n ≤ m) {a : q.Answer} (h : answerOn n T q = some a) :
    answerOn m T q = some a := by
  obtain ⟨σ', -, hrun⟩ := run_of_answerOn h (σ := {}) rfl
  have hmono := run_answerWithin_mono (p := Search.about q) hnm (T := T) (σ := {}) (r := (a, σ'))
  simp only [Search.about, run_ask_ok] at hmono
  obtain ⟨b, σ₁, hb, hdone⟩ := hmono ⟨a, σ', hrun, rfl⟩
  cases hdone
  exact answerOn_of_run rfl hb

/-- With a faithful memory a question gets the answer that it gets without one, if it is given up for
nothing else. -/
theorem Unmixed.answerOn_eq (hA : D.Apart) (hq : D.asked q) (hu : Unmixed n [] q) {a b : q.Answer}
    (hplain : answerOn n [] q = some b) {σ' : Session} (hσ : σ.Faithful D)
    (h : (answerWithin n [] q).run σ = .ok (a, σ')) : a = b := by
  obtain ⟨c, memo⟩ := σ
  cases memo with
  | none => exact Option.some.inj ((answerOn_of_run rfl h).symm.trans hplain)
  | some M =>
    obtain ⟨⟨c₁, memo⟩, hmemo, hrun⟩ := run_of_answerOn hplain (σ := {}) rfl
    cases hmemo
    obtain ⟨M', -, hrcl⟩ := answerWithin_recall hA n [] q c 0 c₁ M b hq
      (List.forall_mem_nil _) hu (hσ M rfl).2 hrun
    cases h.symm.trans hrcl
    rfl

/-! ## Trails that do not matter -/

theorem Search.run_answer_congr {answer answer' : (q : Question) → Option q.Answer}
    (hgiven : ∀ {q a}, D.asked q → answer q = some a → D.given q a)
    (h : ∀ {q}, D.asked q → answer q = answer' q) {α : Type} {post : α → Prop} {p : Search α}
    (hp : p.Ensures D.asked D.given post) : p.run answer = p.run answer' := by
  induction p with
  | done a => rfl
  | ask q next ih =>
    simp only [Search.run, ← h hp.1]
    cases hq : answer q with
    | none => rfl
    | some a => exact ih a (hp.2 a (hgiven hp.1 hq))

/-- **Two trails with the same pairs of the realm's questions** lead to the same answers. -/
theorem answerOn_congr_trail {D : Realm} (n : Nat) {T' : Trail}
    (h : ∀ {q p}, D.asked q → q.pair? = some p → (p ∈ T ↔ p ∈ T')) (hq : D.asked q) :
    answerOn n T q = answerOn n T' q := by
  have hrun := answerWithin_congr_trail n (fun _ _ he hp => h he hp) q {} hq
    (Session.faithful_of_none D rfl)
  refine Option.ext fun a => ⟨fun ha => ?_, fun ha => ?_⟩ <;>
    obtain ⟨σ', -, hσ'⟩ := run_of_answerOn ha (σ := {}) rfl
  · exact answerOn_of_run rfl (hrun ▸ hσ')
  · exact answerOn_of_run rfl (hrun.symm ▸ hσ')

theorem Scope.answerOn_denotes (s : Scope) (picker : Picker) (q : QIdent) (hn : s.searchBound 1 ≤ n) :
    answerOn n [] (.name picker s q) = some (s.denotes picker q) := by
  obtain ⟨σ, hspec⟩ := s.denotes_spec picker q
  exact answerOn_of_run rfl (hspec n hn)

/-- A name is searched in the same way on trails with the same pairs of the questions that imports and
exports on the way to the declarations ask. -/
theorem Territory.nameSearch_congr {T : Territory} (hs : T.scope s) {trail trail' : Trail}
    (h : ∀ {e p}, T.strictly.asked e → e.pair? = some p → (p ∈ trail ↔ p ∈ trail')) (picker : Picker)
    (q : QIdent) (n : Nat) :
    (nameSearch picker s q).run (answerOn n trail) = (nameSearch picker s q).run (answerOn n trail') :=
  Search.run_answer_congr (D := T.strictly.realm) (fun he => Realm.given_of_answerOn he)
    (fun he => answerOn_congr_trail n h he) (Territory.picks_nameSearch (T := T.strictly) picker hs q)

/-- **A search on its way finds what a name denotes**, if nothing is on its trail that the imports and
exports on the way to the declarations take up. -/
theorem Scope.denotes_of_answerOn {T : Territory} (hs : T.scope s) {trail : Trail}
    (htrail : ∀ {e p}, T.strictly.asked e → e.pair? = some p → p ∉ trail) {q : QIdent}
    (hq : (s.key, .name q) ∉ trail) {picker : Picker} {fs : List Found}
    (h : answerOn n trail (.name picker s q) = some fs) : fs = s.denotes picker q := by
  have hfs := answerOn_mono (Nat.le_succ_of_le (Nat.le_max_left n (s.searchBound 1))) h
  have hden := s.answerOn_denotes picker q (Nat.le_succ_of_le (Nat.le_max_right n (s.searchBound 1)))
  have hopen : ∀ {T : Trail}, (s.key, .name q) ∉ T → ¬ (Question.name picker s q).CutOn T := by
    rintro T hT ⟨p, hp, hmem⟩
    simp only [Question.pair?] at hp
    split at hp
    · cases hp
    · cases hp
      exact hT hmem
  rw [answerOn_open (hopen hq)] at hfs
  rw [answerOn_open (hopen List.not_mem_nil)] at hden
  have hsame : ∀ {e p}, T.strictly.asked e → e.pair? = some p →
      (p ∈ (Question.name picker s q).trail trail ↔ p ∈ (Question.name picker s q).trail []) := by
    intro e p he hp
    simp [Question.trail, htrail he hp]
  have hrun := Territory.nameSearch_congr hs hsame picker q (max n (s.searchBound 1))
  exact Option.some.inj ((hfs.symm.trans hrun).trans hden)

/-- In a scope without declarations the search of a name does not come by its own pair. -/
theorem Territory.Numbered.run_denotes {T : Territory} (hT : T.Numbered) (hs : T.scope s)
    (hcont : s.isContainer = false) (picker : Picker) (q : QIdent) (hn : s.searchBound 1 ≤ n) :
    (nameSearch picker s q).run (answerOn n []) = some (s.denotes picker q) := by
  have hden := s.answerOn_denotes picker q (Nat.le_succ_of_le hn)
  rw [answerOn_open fun ⟨_, _, hmem⟩ => List.not_mem_nil hmem] at hden
  refine (Territory.nameSearch_congr hs (fun {e p} he hp => ?_) picker q n).trans hden
  refine ⟨fun hmem => absurd hmem List.not_mem_nil, fun hmem => ?_⟩
  have hpair : (Question.name picker s q).pair? = some p := by simpa [Question.trail] using hmem
  simp only [Question.pair?] at hpair
  split at hpair
  · cases hpair
  · cases hpair
    obtain ⟨d, hd, -⟩ := hT.lookedUp_of_pair hs he hp
    rw [Scope.members_eq_nil hcont] at hd
    cases hd

end Ambient
