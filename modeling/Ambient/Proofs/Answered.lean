import Ambient.Proofs.Asking

/-!
# Every question is answered

A step that writes out mapped types asks for the keys of types that it has changed already, so what is
remembered of keys need not be what is asked for. That does not matter for coming to an end: a
search goes nowhere from the keys that it gets. It is enough that the memory is faithful in what imports and
exports bind (`Realm.ButKeys`), and it stays so whatever is asked (`answerWithin_keeps`).

Main statement: in the middle of a step, every query from a scope of the library is answered
(`Query.answered`, `Root.Enters.keys_answered`).
-/

namespace Ambient

/-! ## Memories that are faithful but for keys -/

/-- Apart from keys, what the memory keeps of the questions of `D` are answers to questions of `P`. Nothing
is expected of keys. -/
structure Realm.ButKeys (D P : Realm) : Prop where
  bindings : ∀ {q}, D.asked q → q.slot?.isSome → P.asked q ∨ ∃ s t, q = .keys s t
  unasked : ∀ {s t}, ¬ P.asked (.keys s t)
  anyKeys : ∀ {s t} ks, D.given (.keys s t) ks

theorem Realm.ButKeys.inter {D E P : Realm} (h : D.ButKeys P)
    (hE : ∀ {s t} ks, E.given (.keys s t) ks) : (D.inter E).ButKeys P where
  bindings hq := h.bindings hq.1
  unasked := h.unasked
  anyKeys ks := ⟨h.anyKeys ks, hE ks⟩

theorem Memo.slot?_isSome_of_find? {M : Memo} {q : Question} {a : q.Answer} (h : M.find? q = some a) :
    q.slot?.isSome := by
  cases q with
  | imported s i | exported s h e => rfl
  | keys s t => cases t <;> first | rfl | cases h
  | _ => cases h

/-- Storing an answer to a question that the realm does not ask, and that shares no place with one that it
asks, leaves the memory faithful. -/
theorem Memo.Faithful.store_other {P : Realm} {M : Memo} (hM : M.Faithful P) {q : Question}
    (hq : ∀ q', P.asked q' → q.slot?.isSome → q.slot? ≠ q'.slot?) (a : q.Answer) :
    (M.store q a).Faithful P := by
  intro q' b hq' hb
  obtain hb | ⟨hs, hi, -⟩ := Memo.find?_store hb
  · exact hM q' b hq' hb
  · exact absurd hs (hq q' hq' hi)

section
variable {D P : Realm} (h : D.ButKeys P) {q : Question} (hq : D.asked q) (hP : ¬ P.asked q)
include h hq hP

theorem Realm.ButKeys.slot_ne {q' : Question} (hq' : P.asked q') (hslot : q.slot?.isSome) :
    q.slot? ≠ q'.slot? := by
  obtain ⟨s, t, rfl⟩ := (h.bindings hq hslot).resolve_left hP
  intro he
  obtain ⟨k, hk⟩ := Option.isSome_iff_exists.1 hslot
  have hkeys : ∃ key, k = .keys key := by
    cases t <;> cases hk <;> exact ⟨_, rfl⟩
  obtain ⟨key, rfl⟩ := hkeys
  obtain ⟨s', t', rfl, -⟩ := Question.eq_keys_of_slot? (he.symm.trans hk)
  exact h.unasked hq'

theorem Realm.ButKeys.given_of_find? {M : Memo} {a : q.Answer} (ha : M.find? q = some a) :
    D.given q a := by
  obtain ⟨s, t, rfl⟩ := (h.bindings hq (Memo.slot?_isSome_of_find? ha)).resolve_left hP
  exact h.anyKeys a

theorem Realm.ButKeys.keep {σ : Session} (hσ : σ.Faithful P) (cuts : Nat) (a : q.Answer) :
    (σ.keep cuts q a).Faithful P := by
  unfold Session.keep
  split
  · intro M hM
    obtain ⟨M', hM', rfl⟩ := Option.map_eq_some_iff.1 hM
    obtain ⟨hapart, hM'⟩ := hσ M' hM'
    exact ⟨hapart, hM'.store_other (fun _ hq' => h.slot_ne hq hP hq') a⟩
  · exact hσ

end

/-- **Whatever is asked, the memory stays faithful**, but for keys. By induction on the bound: a question
of `P` is asked in `P`, and any other one leaves what `P` asks about alone. -/
theorem answerWithin_keeps {D P : Realm} (h : D.ButKeys P) :
    ∀ (n : Nat) (T : Trail), D.Keeps (Session.Faithful P) (answerWithin n T)
  | 0, _, _, _, _, _, _, _, hrun => by cases hrun
  | n + 1, T, q, σ, a, σ', hq, hσ, hrun => by
    by_cases hP : P.asked q
    · have hboth := answerWithin_after (P.inter D) (n + 1) T q σ a σ' ⟨hP, hq⟩ (hσ.inter D) hrun
      have hafter := answerWithin_after P (n + 1) T q σ a σ' hP hσ hrun
      exact ⟨hboth.1.2, hafter.2.faithful⟩
    by_cases hcut : q.CutOn T
    · rw [answerWithin_cut hcut] at hrun
      cases hrun
      exact ⟨D.unanswered q hq, hσ.recount _⟩
    rw [answerWithin_open hcut] at hrun
    have hsrch : ∀ {b σ₁}, (q.search.run (answerWithin n (q.trail T))).run σ = .ok (b, σ₁) →
        D.given q b ∧ σ₁.Faithful P :=
      (answerWithin_keeps h n (q.trail T)).run (D.search q hq) hσ
    cases hm : σ.memo with
    | none =>
      rw [memoized_of_none hm] at hrun
      exact hsrch hrun
    | some M =>
      cases hf : M.find? q with
      | some b =>
        rw [memoized_of_hit hm hf] at hrun
        cases hrun
        exact ⟨h.given_of_find? hq hP hf, hσ⟩
      | none =>
        rw [memoized_of_miss hm hf] at hrun
        obtain ⟨⟨b, σ₁⟩, hb, hrun⟩ := map_eq_ok.1 hrun
        cases hrun
        obtain ⟨hg, hσ₁⟩ := hsrch hb
        exact ⟨hg, h.keep hq hP hσ₁ _ _⟩

/-- **A query is answered** if the memory is faithful but for keys. -/
theorem Query.answered {Q : Query} {D P : Realm} (h : D.ButKeys P) (hQ : Q.In D) :
    (asking P).Ends (Q.run []) := by
  intro _ σ hσ
  let E := D.inter Q.territory.realm
  have hE : E.Bounded Q.start.pairs (Q.start.reach + Q.start.links + 2) :=
    ⟨fun hq => Q.start.territory_bounded.pair hq.2, fun hq => Q.start.territory_bounded.rank hq.2⟩
  have hkeeps := answerWithin_keeps (D := E) (h.inter fun _ => trivial)
  have hQE : Q.In E := (hQ.and Q.in_territory).mono (fun _ h => h) fun _ _ => trivial
  obtain ⟨⟨a, σ'⟩, hrun⟩ := (hkeeps Q.bound []).run_ends hQE (fun q hq => ⟨hq, fun σ' hσ' =>
    answerWithin_ends hE hkeeps Q.bound [] q σ' hq hσ' (Q.left_lt_bound [] hq.2)⟩) hσ
  refine ⟨a, σ', ?_, ((hkeeps Q.bound []).run hQE hσ hrun).2, trivial⟩
  rw [Query.run_eq]
  exact hrun

theorem afresh_ends {D : Realm} {α : Type} {x : Resolve α} (hx : (asking D).Ends x) :
    (asking D).Ends (Resolve.afresh x) :=
  fun w => afresh_asking (hx w)

/-! ## Queries from the scopes of a library -/

/-- The territory of all scopes of a library and of those it depends on, for questions of any kind about
any names and types. -/
def Root.inquiries (root : Root) (f : File) : Territory :=
  { root.territory f with
    ty := fun _ _ => True
    plain := False
    followed := fun _ _ _ _ _ _ _ => trivial
    target := fun _ _ _ _ _ => trivial
    part := fun _ _ _ _ _ _ _ => trivial
    tyName := fun _ _ _ _ _ _ => trivial }

theorem Root.inquiries_butKeys (root : Root) (f : File) :
    (root.inquiries f).realm.ButKeys (root.territory f).realm where
  bindings {q} hq hslot := by
    cases q with
    | imported s i | exported s h e => exact .inl hq
    | keys s t => exact .inr ⟨s, t, rfl⟩
    | _ => cases hslot
  unasked h := h.1 trivial
  anyKeys _ := trivial

/-- Computations that ask for what names mean in the scopes of a library. -/
abbrev Root.asks (root : Root) (f : File) : Logic Resolve := asking (root.territory f).realm

section
variable {root : Root} {f : File} {s : Scope} (hs : root.Enters f s)
include hs

theorem Root.Enters.lookup_answered (picker : Picker) (q : QIdent) :
    (root.asks f).Ends (s.lookupWith picker q []) :=
  Query.answered (Q := .lookup s picker q) (root.inquiries_butKeys f)
    (.about ⟨hs, trivial, False.elim⟩ fun _ _ => trivial)

theorem Root.Enters.members_answered (q : QIdent) : (root.asks f).Ends (s.membersOf q []) :=
  Query.answered (Q := .members s q) (root.inquiries_butKeys f)
    (.about ⟨not_false, hs, trivial⟩ fun _ _ => trivial)

theorem Root.Enters.keys_answered (t : Ty) : (root.asks f).Ends (s.evaluateKeys t []) :=
  Query.answered (Q := .keys s t) (root.inquiries_butKeys f)
    (.about ⟨not_false, hs, trivial⟩ fun _ _ => trivial)

theorem Root.Enters.ctors_answered (q : QIdent) (targs : List Ty) :
    (root.asks f).Ends (s.ctorsOf q targs []) :=
  Query.answered (Q := .ctors s q targs) (root.inquiries_butKeys f)
    (.about ⟨not_false, hs, trivial⟩ fun _ _ => trivial)

end

end Ambient
