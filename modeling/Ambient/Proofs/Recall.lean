import Ambient.Proofs.Realm

/-!
# Remembering does not change answers

A remembered answer is ideal, but the search that would find it anew may be given up on the trail
at hand. The two agree as long as a question is only ever given up for itself: `Unmixed` says that
no search on the way is given up because a different question has taken up its pair.

* A question with an ideal answer never has a question in progress inside its own search, if it is
  itself asked by them (`Below`). So on every trail that can come up, its search finds the ideal
  answer and nothing is cut (`answerWithin_ideal`).
* Hence a search finds the same with a faithful memory as without, and cuts as often
  (`answerWithin_recall`).
-/

namespace Ambient

/-- The trail of the questions in progress, the innermost first. -/
def trailOf (path : List Question) : Trail := path.filterMap Question.pair?

theorem trailOf_cons (q : Question) (path : List Question) :
    trailOf (q :: path) = q.trail (trailOf path) := by
  cases h : q.pair? <;> simp [trailOf, Question.trail, h]

/-- `a` is found for the question without a memory. -/
def FoundWithin (n : Nat) (T : Trail) (q : Question) (a : q.Answer) : Prop :=
  ∃ σ σ', σ.memo = none ∧ (answerWithin n T q).run σ = .ok (a, σ')

/-- In the search for the question, without a memory and below the questions of `path`, each question
that is given up is itself in progress, and not only another one with its pair. -/
def Unmixed : Nat → List Question → Question → Prop
  | 0, _, _ => True
  | n + 1, path, q =>
    (q.CutOn (trailOf path) → q ∈ path) ∧
      (¬ q.CutOn (trailOf path) →
        q.search.Ensures (Unmixed n (q :: path)) (FoundWithin n (trailOf (q :: path)))
          fun _ => True)

/-! ## Ideal answers are found -/

variable {q : Question} {σ σ' : Session} {α : Type}

section
variable {n m : Nat} {path : List Question}

theorem run_ideal (hans : ∀ {q : Question} {a b : q.Answer} {σ σ' : Session}, idealAnswer m q = some a →
      Unmixed n path q → σ.memo = none → (answerWithin n (trailOf path) q).run σ = .ok (b, σ') →
      b = a ∧ σ' = σ) {p : Search α} {r b : α} (hr : p.run (idealAnswer m) = some r)
    (hp : p.Ensures (Unmixed n path) (FoundWithin n (trailOf path)) fun _ => True) (hσ : σ.memo = none)
    (h : (p.run (answerWithin n (trailOf path))).run σ = .ok (b, σ')) : b = r ∧ σ' = σ := by
  induction p with
  | done a =>
    cases hr
    cases h
    exact ⟨rfl, rfl⟩
  | ask q next ih =>
    obtain ⟨a, ha, hn⟩ := run_ask_some.1 hr
    obtain ⟨a', σ₁, ha', hn'⟩ := run_ask_ok.1 h
    obtain ⟨rfl, rfl⟩ := hans ha hp.1 hσ ha'
    exact ih a' hn (hp.2 a' ⟨_, _, hσ, ha'⟩) hn'

end

/-- **A question with an ideal answer is answered in full** below questions that take more questions
inside each other than it does, or have no ideal answer. By induction on the number that it takes:
the questions that it asks take fewer, and it is now one of those that they are below. -/
theorem answerWithin_ideal (m : Nat) : ∀ {n : Nat} {path : List Question} {q : Question}
    {a b : q.Answer} {σ σ' : Session}, idealAnswer (m + 1) q = some a → idealAnswer m q = none →
    (∀ e ∈ path, idealAnswer (m + 1) e = none) → Unmixed n path q → σ.memo = none →
    (answerWithin n (trailOf path) q).run σ = .ok (b, σ') → b = a ∧ σ' = σ := by
  induction m using Nat.strongRecOn with
  | _ m ih =>
    intro n path q a b σ σ' ha hleast hpath hu hσ h
    cases n with
    | zero => cases h
    | succ n =>
      have hcut : ¬ q.CutOn (trailOf path) := by
        intro hc
        have := hpath q (hu.1 hc)
        rw [ha] at this
        cases this
      rw [answerWithin_open hcut, memoized_of_none hσ, ← trailOf_cons] at h
      refine run_ideal (m := m) (fun {q' a' b' σ₁ σ₁'} ha' hu' hσ₁ h' => ?_) ha (hu.2 hcut) hσ h
      obtain ⟨k, hk, hk₁, hk₂⟩ := exists_least_ideal ha'
      refine ih k hk hk₁ hk₂ (fun e he => ?_) hu' hσ₁ h'
      rcases List.mem_cons.1 he with rfl | he
      · exact idealAnswer_none hleast hk
      · exact idealAnswer_none (hpath e he) (by omega)

/-! ## Searches with a memory -/

/-- If a question of `path` has an ideal answer then so has `q`, and it takes fewer questions inside
each other. -/
def Below (path : List Question) (q : Question) : Prop :=
  ∀ e ∈ path, ∀ m, (idealAnswer (m + 1) e).isSome → (idealAnswer m q).isSome

/-- The same for what is left of a search. -/
def RunBelow {α : Type} (path : List Question) (p : Search α) : Prop :=
  ∀ e ∈ path, ∀ m, (idealAnswer (m + 1) e).isSome → (p.run (idealAnswer m)).isSome

theorem Below.search {path : List Question} (h : Below path q) : RunBelow (q :: path) q.search := by
  intro e he m hm
  rcases List.mem_cons.1 he with rfl | he
  · exact hm
  · obtain ⟨a, ha⟩ := Option.isSome_iff_exists.1 (h e he m hm)
    exact Option.isSome_iff_exists.2 ⟨a, idealAnswer_succ ha⟩

theorem RunBelow.first {path : List Question} {next : q.Answer → Search α}
    (h : RunBelow path (.ask q next)) : Below path q := by
  intro e he m hm
  obtain ⟨r, hr⟩ := Option.isSome_iff_exists.1 (h e he m hm)
  obtain ⟨a, ha, -⟩ := run_ask_some.1 hr
  exact Option.isSome_iff_exists.2 ⟨a, ha⟩

/-- On a trail that can come up, whatever is found without a memory for a question with an ideal
answer is that answer, and nothing is cut. -/
theorem Below.answer_ideal {path : List Question} (hb : Below path q) {n m : Nat}
    (hu : Unmixed n path q) {a b : q.Answer} (ha : idealAnswer m q = some a) (hσ : σ.memo = none)
    (h : (answerWithin n (trailOf path) q).run σ = .ok (b, σ')) : b = a ∧ σ' = σ := by
  obtain ⟨k, -, hk₁, hk₂⟩ := exists_least_ideal ha
  refine answerWithin_ideal k hk₁ hk₂ (fun e he => ?_) hu hσ h
  cases hs : idealAnswer (k + 1) e with
  | none => rfl
  | some _ =>
    have := hb e he k (by rw [hs]; rfl)
    rw [hk₂] at this
    cases this

theorem RunBelow.next {path : List Question} {next : q.Answer → Search α}
    (h : RunBelow path (.ask q next)) {n : Nat} (hu : Unmixed n path q) {b : q.Answer}
    (hσ : σ.memo = none) (hrun : (answerWithin n (trailOf path) q).run σ = .ok (b, σ')) :
    RunBelow path (next b) := by
  intro e he m hm
  obtain ⟨r, hr⟩ := Option.isSome_iff_exists.1 (h e he m hm)
  obtain ⟨a, ha, hn⟩ := run_ask_some.1 hr
  obtain ⟨rfl, -⟩ := h.first.answer_ideal hu ha hσ hrun
  exact Option.isSome_iff_exists.2 ⟨r, hn⟩

/-- With a memory of ideal answers the same answer is found as without, with as many cuts. -/
def Recalls (D : Realm) (n : Nat) (path : List Question) : Prop :=
  ∀ (q : Question) (c c₀ c₁ : Nat) (M : Memo) (a : q.Answer), D.asked q → Below path q →
    Unmixed n path q → M.Faithful D →
    (answerWithin n (trailOf path) q).run ⟨c₀, none⟩ = .ok (a, ⟨c₁, none⟩) →
    ∃ M', M'.Faithful D ∧
      (answerWithin n (trailOf path) q).run ⟨c, some M⟩ = .ok (a, ⟨c + (c₁ - c₀), some M'⟩)

theorem answerWithin_plain {D : Realm} {n : Nat} {T : Trail} {c₀ : Nat} {a : q.Answer} (hq : D.asked q)
    (h : (answerWithin n T q).run ⟨c₀, none⟩ = .ok (a, σ)) :
    D.given q a ∧ ∃ c₁, σ = ⟨c₁, none⟩ ∧ c₀ ≤ c₁ ∧
      (c₁ = c₀ → ∃ m, idealAnswer m q = some a) := by
  obtain ⟨hg, ha⟩ := answerWithin_after D n T q _ a σ hq (Session.faithful_of_none D rfl) h
  obtain ⟨c₁, memo⟩ := σ
  have hm : memo = none := by simpa using ha.memo
  subst hm
  exact ⟨hg, c₁, rfl, ha.cuts, ha.ideal⟩

theorem Recalls.run {D : Realm} {n : Nat} {path : List Question} (hrec : Recalls D n path)
    {post : α → Prop} {p : Search α} (hp : p.Ensures D.asked D.given post)
    (hu : p.Ensures (Unmixed n path) (FoundWithin n (trailOf path)) fun _ => True)
    (hb : RunBelow path p) {c c₀ c₁ : Nat} {M : Memo} {r : α} (hM : M.Faithful D)
    (h : (p.run (answerWithin n (trailOf path))).run ⟨c₀, none⟩ = .ok (r, ⟨c₁, none⟩)) :
    c₀ ≤ c₁ ∧ ∃ M', M'.Faithful D ∧
      (p.run (answerWithin n (trailOf path))).run ⟨c, some M⟩ =
        .ok (r, ⟨c + (c₁ - c₀), some M'⟩) := by
  induction p generalizing c c₀ M with
  | done a =>
    cases h
    exact ⟨Nat.le_refl _, M, hM, by simp [run_done]⟩
  | ask q next ih =>
    obtain ⟨a, σ, ha, hn⟩ := run_ask_ok.1 h
    obtain ⟨hg, c₂, rfl, hle, -⟩ := answerWithin_plain hp.1 ha
    obtain ⟨M₁, hM₁, h₁⟩ := hrec q c c₀ c₂ M a hp.1 hb.first hu.1 hM ha
    obtain ⟨hle', M₂, hM₂, h₂⟩ := ih a (hp.2 a hg) (hu.2 a ⟨_, _, rfl, ha⟩)
      (hb.next hu.1 rfl ha) hM₁ hn (c := c + (c₂ - c₀))
    refine ⟨by omega, M₂, hM₂, run_ask_ok.2 ⟨a, _, h₁, ?_⟩⟩
    rw [h₂]
    congr 3
    omega

/-- **A search finds the same with a faithful memory as without**, and cuts as often. -/
theorem answerWithin_recall {D : Realm} (hA : D.Apart) : ∀ (n : Nat) (path : List Question), Recalls D n path
  | 0, _, _, _, _, _, _, _, _, _, _, _, h => by cases h
  | n + 1, path, q, c, c₀, c₁, M, a, hq, hb, hu, hM, h => by
    by_cases hcut : q.CutOn (trailOf path)
    · rw [answerWithin_cut hcut] at h ⊢
      cases h
      exact ⟨M, hM, by simp⟩
    have hplain := answerWithin_plain hq h
    have hopen := h
    rw [answerWithin_open hcut, memoized_of_none rfl, ← trailOf_cons] at hopen
    obtain ⟨-, c₁', he, hle, hideal⟩ := hplain
    cases he
    rw [answerWithin_open hcut]
    cases hf : M.find? q with
    | some b =>
      rw [memoized_of_hit rfl hf]
      obtain ⟨k, hk⟩ := hM q b hq hf
      obtain ⟨rfl, he⟩ := hb.answer_ideal hu hk rfl h
      cases he
      exact ⟨M, hM, by simp⟩
    | none =>
      obtain ⟨-, M', hM', h'⟩ := (answerWithin_recall hA n (q :: path)).run (D.search q hq)
        (hu.2 hcut) hb.search hM hopen (c := c)
      rw [memoized_of_miss rfl hf, ← trailOf_cons, h']
      simp only [Except.map, Session.keep]
      split
      · rename_i hc
        obtain ⟨m, hm⟩ := hideal (by omega)
        exact ⟨_, hM'.store hA hq hm, rfl⟩
      · exact ⟨M', hM', rfl⟩

end Ambient
