import Ambient.Proofs.Queries
import Ambient.Proofs.Recall
import Mathlib.Data.List.Nodup

/-!
# One memory for many queries

Queries that follow each other may share a memory. Where scopes, declarations and types are told apart
by their numbers (`Territory.Numbered`), the memory holds ideal answers after any queries
(`askAll_faithful`), and a query whose search gives nothing up for the sake of a different question
gets the same answer as without a memory (`memory_keeps_answers`). Queries for all that a name denotes,
for imports and for exports are always of that kind (`Territory.Numbered.unmixed`).

A search that looks for some of the declarations of a name is not: what it is working on is noted
without what it looks for, so it can be in the way of the search for all of them.
-/

namespace Ambient

/-- Where a pair is taken up for one question only, questions are only given up for themselves. By
induction on the bound: the questions in progress stay in the realm. -/
theorem Realm.unmixed {D : Realm} (hD : ∀ {q q' : Question}, D.asked q → D.asked q' →
    ∀ {p : ScopeKey × Step}, q.pair? = some p → q'.pair? = some p → q = q') :
    ∀ (n : Nat) {path : List Question} {q : Question}, (∀ e ∈ path, D.asked e) → D.asked q →
      Unmixed n path q
  | 0, _, _, _, _ => trivial
  | n + 1, path, q, hpath, hq => by
    refine ⟨?_, fun _ => ?_⟩
    · rintro ⟨p, hp, hcut⟩
      obtain ⟨e, he, hep⟩ := List.mem_filterMap.1 hcut
      exact hD (hpath e he) hq hep hp ▸ he
    · have hpath' : ∀ e ∈ q :: path, D.asked e := fun e he =>
        (List.mem_cons.1 he).elim (fun h => h ▸ hq) (hpath e)
      refine (D.search q hq).imp (fun q' hq' => Realm.unmixed hD n hpath' hq') ?_ fun _ _ => trivial
      rintro q' a hq' ⟨σ, σ', hσ, h⟩
      exact (answerWithin_after D _ _ q' σ a σ' hq' (Session.faithful_of_none _ hσ) h).1

/-! ## Numbers tell questions apart -/

variable {Q : Query} {q : Question} {D : Realm} {σ : Session}

namespace Territory

/-- No two scopes of the territory have the same identity, and no two declarations or types in one
of them have the same number. -/
structure Numbered (T : Territory) : Prop where
  scope : ∀ {s s'}, T.scope s → T.scope s' → s.key = s'.key → s = s'
  decl : ∀ {s d d'}, T.stands s d → T.stands s d' → d.id = d'.id → d = d'
  ty : ∀ {s t t'}, T.ty s t → T.ty s t' → t.id = t'.id → t = t'

variable {T : Territory}

theorem Numbered.apart (hT : T.Numbered) : T.realm.Apart := by
  intro q q' hq hq' hs hsome
  cases q with
  | imported s i =>
    obtain ⟨s', i', rfl, hk⟩ := Question.eq_imported_of_slot? hs.symm
    rw [Prod.mk.injEq] at hk
    obtain rfl := hT.scope hq.1 hq'.1 hk.1
    cases hT.decl hq.2 hq'.2 hk.2
    rfl
  | exported s h e =>
    obtain ⟨s', h', e', rfl, hk⟩ := Question.eq_exported_of_slot? hs.symm
    rw [Prod.mk.injEq] at hk
    obtain rfl := hT.scope hq.1 hq'.1 hk.1
    cases hT.decl hq.2 hq'.2 hk.2
    rfl
  | keys s t =>
    by_cases ht : t = .this
    · subst ht
      cases hsome
    rw [Question.slot?_keys ht] at hs
    obtain ⟨s', t', rfl, hk⟩ := Question.eq_keys_of_slot? hs.symm
    rw [Prod.mk.injEq] at hk
    obtain rfl := hT.scope hq.2.1 hq'.2.1 hk.1
    cases hT.ty hq.2.2 hq'.2.2 hk.2
    rfl
  | _ => cases hsome

/-- The same territory, for names, imports and exports only. -/
def plainly (T : Territory) : Territory :=
  { T with
    plain := True
    followed := fun h => absurd trivial h
    target := fun h => absurd trivial h
    part := fun h => absurd trivial h
    tyName := fun h => absurd trivial h }

/-- The question what an import or export binds. -/
def bindingQuestion? (s : Scope) : Decl → Option Question
  | .imports i => some (.imported s i)
  | .exports h e => some (.exported s h e)
  | _ => none

theorem plain_cases (hq : T.plainly.asked q) {p : ScopeKey × Step} (hp : q.pair? = some p) :
    (∃ s x, T.scope s ∧ q = .name .all s x ∧ p = (s.key, .name x)) ∨
      ∃ s d, T.scope s ∧ T.stands s d ∧ bindingQuestion? s d = some q ∧ p = (s.key, .node d.id) := by
  cases q with
  | name picker s x =>
    simp only [Question.pair?] at hp
    split at hp
    · cases hp
    · cases hp
      obtain rfl := hq.2.2 trivial
      exact .inl ⟨s, x, hq.1, rfl, rfl⟩
  | imported s i | exported s h e =>
    cases hp
    exact .inr ⟨s, _, hq.1, hq.2, rfl, rfl⟩
  | members s q | contribution f | keys s t | aliasKeys f t | ctors s q targs | ctorsOf f c =>
    exact absurd trivial hq.1

theorem Numbered.eq_of_pair (hT : T.Numbered) {q' : Question} (hq : T.plainly.asked q)
    (hq' : T.plainly.asked q') {p : ScopeKey × Step} (hp : q.pair? = some p) (hp' : q'.pair? = some p) :
    q = q' := by
  rcases plain_cases hq hp with ⟨s, x, hs, rfl, rfl⟩ | ⟨s, d, hs, hd, hqd, rfl⟩ <;>
    rcases plain_cases hq' hp' with ⟨s', x', hs', rfl, he⟩ | ⟨s', d', hs', hd', hqd', he⟩
  · rw [Prod.mk.injEq] at he
    obtain rfl := hT.scope hs hs' he.1
    cases he.2
    rfl
  · cases (Prod.mk.inj he).2
  · cases (Prod.mk.inj he).2
  · rw [Prod.mk.injEq] at he
    obtain rfl := hT.scope hs hs' he.1
    obtain rfl := hT.decl hd hd' (Step.node.inj he.2)
    exact Option.some.inj (hqd.symm.trans hqd')

/-- **Plain questions are only given up for themselves.** -/
theorem Numbered.unmixed (hT : T.Numbered) (n : Nat) {path : List Question}
    (hpath : ∀ e ∈ path, T.plainly.asked e) (hq : T.plainly.asked q) : Unmixed n path q :=
  Realm.unmixed (D := T.plainly.realm) hT.eq_of_pair n hpath hq

end Territory

theorem Start.numbered {S : Start} (hscs : (S.scopes.map Scope.key).Nodup)
    (hpls : (S.places.map fun p => (p.1.key, p.2.id)).Nodup)
    (htys : ((S.evaluated.flatMap fun p => p.2.branches.map fun t => (p.1, t)).map
      fun p => (p.1.key, p.2.id)).Nodup) : S.territory.Numbered where
  scope hs hs' h := List.inj_on_of_nodup_map hscs hs hs' h
  decl {s d d'} hd hd' h :=
    congrArg Prod.snd (List.inj_on_of_nodup_map hpls hd hd' (congrArg (s.key, ·) h))
  ty {s t t'} ht ht' h := by
    have hmem : ∀ {t}, S.territory.ty s t →
        (s, t) ∈ S.evaluated.flatMap fun p => p.2.branches.map fun t => (p.1, t) := by
      rintro t ⟨u, hu, ht⟩
      exact List.mem_flatMap.2 ⟨(s, u), hu, List.mem_map_of_mem ht⟩
    exact congrArg Prod.snd
      (List.inj_on_of_nodup_map htys (hmem ht) (hmem ht') (congrArg (s.key, ·) h))

/-! ## Queries one after the other -/

/-- The query in a search of its own. -/
def Query.ask (Q : Query) : Resolve Q.Answer :=
  Resolve.afresh (Q.run [])

theorem afresh_run {α : Type} (search : Resolve α) (σ : Session) :
    (Resolve.afresh search).run σ =
      (search.run { σ with cuts := 0 }).map fun r => (r.1, { r.2 with cuts := σ.cuts }) := by
  simp only [Resolve.afresh, StateT.run_bind, StateT.run_get, StateT.run_modify, pure_bind]
  cases search.run { σ with cuts := 0 } <;> rfl

theorem Session.Faithful.recount (h : σ.Faithful D) (n : Nat) :
    Session.Faithful D { σ with cuts := n } := h

theorem Query.ask_faithful (hQ : Q.In D) (hσ : σ.Faithful D) :
    ∃ a σ', Q.ask.run σ = .ok (a, σ') ∧ σ'.Faithful D ∧
      σ'.memo.isSome = σ.memo.isSome := by
  obtain ⟨⟨⟨a, σ₁⟩, hrun, -⟩, -⟩ := Query.ends_of_faithful hQ [] (hσ.recount 0)
  have hafter := hrun
  rw [Query.run_eq] at hafter
  obtain ⟨-, hafter⟩ := (answerWithin_after D Q.bound []).run hQ (hσ.recount 0) hafter
  refine ⟨a, { σ₁ with cuts := σ.cuts }, ?_, hafter.faithful, hafter.memo⟩
  rw [Query.ask, afresh_run, hrun]
  rfl

/-- Is the query for all that a name denotes, or for what imports and exports bind? -/
def Query.Plain : Query → Prop
  | .lookup _ picker _ => picker = .all
  | .imports _ _ | .exports _ _ | .exported _ => True
  | .keys _ _ | .members _ _ | .ctors _ _ _ => False

/-- In the search of the query, without a memory, each question that is given up is itself in
progress. -/
def Query.Unmixed (Q : Query) : Prop :=
  Q.search.Ensures (Ambient.Unmixed Q.bound []) (FoundWithin Q.bound []) fun _ => True

theorem exportedBy_asks (s : Scope) : (exportedBy s).Ensures
    (fun q => ∃ h e, q = .exported s h e) (fun _ _ => True) fun _ => True := by
  refine (Search.Ensures.concatMapM (R := fun _ => True) fun d _ => ?_).mono (fun _ h => h)
    fun _ _ => trivial
  cases d with
  | exports h e =>
    exact .about (q := .exported s h e) ⟨h, e, rfl⟩ fun _ _ _ _ => trivial
  | _ => exact fun _ _ => trivial

theorem Query.Plain.in_plainly (hp : Q.Plain) {T : Territory} (hQ : Q.In T.realm) :
    Q.In T.plainly.realm := by
  cases Q with
  | lookup s picker q =>
    obtain rfl := hp
    exact .about ⟨hQ.1.1, hQ.1.2.1, fun _ => rfl⟩ fun _ _ => trivial
  | imports s d =>
    cases d with
    | imports i => exact hQ
    | _ => trivial
  | exports s d =>
    cases d with
    | exports h e => exact hQ
    | _ => trivial
  | exported s =>
    refine (Search.Ensures.and_any hQ (exportedBy_asks s)).imp ?_ (fun _ _ _ h => h) fun _ h => h
    rintro _ ⟨hq, h, e, rfl⟩
    exact hq
  | keys s t | members s q | ctors s q targs => exact hp.elim

theorem Query.Plain.unmixed (hp : Q.Plain) {T : Territory} (hT : T.Numbered) (hQ : Q.In T.realm) :
    Q.Unmixed := by
  have hempty : ∀ e ∈ ([] : List Question), T.plainly.asked e := List.forall_mem_nil _
  refine (hp.in_plainly hQ).imp (fun q hq => hT.unmixed Q.bound hempty hq) ?_ fun _ _ => trivial
  rintro q a hq ⟨σ, σ', hσ, h⟩
  exact (answerWithin_after T.plainly.realm _ _ q σ a σ' hq (Session.faithful_of_none _ hσ) h).1

/-- With a faithful memory the query gets the answer that it gets without one. -/
theorem Query.Unmixed.ask_eq (hu : Q.Unmixed) (hA : D.Apart) (hQ : Q.In D) (hσ : σ.Faithful D) :
    ∃ a σ', Q.ask.run σ = .ok (a, σ') ∧
      Q.ask.run {} = .ok (a, {}) := by
  have hends : Q.Ends [] {} := Query.ends_of_faithful hQ [] (Session.faithful_of_none D rfl)
  obtain ⟨⟨a, σ₀⟩, hplain, -⟩ := hends.answer
  have hrun := hplain
  rw [Query.run_eq] at hrun
  obtain ⟨-, hafter⟩ := (answerWithin_after D Q.bound []).run hQ (Session.faithful_of_none D rfl) hrun
  obtain ⟨c, memo⟩ := σ₀
  have hm : memo = none := by simpa using hafter.memo
  subst hm
  have hnone : Q.ask.run {} = .ok (a, {}) := by
    rw [Query.ask, afresh_run, hplain]
    rfl
  obtain ⟨c', memo'⟩ := σ
  cases memo' with
  | none => exact ⟨a, ⟨c', none⟩, by rw [Query.ask, afresh_run, hplain]; rfl, hnone⟩
  | some M =>
    obtain ⟨-, M', -, hM'⟩ := (answerWithin_recall hA Q.bound []).run hQ hu
      (List.forall_mem_nil _) (hσ M rfl).2 hrun (c := 0)
    refine ⟨a, ⟨c', some M'⟩, ?_, hnone⟩
    rw [Query.ask, afresh_run, Query.run_eq]
    exact congrArg (Except.map _) hM'

end Ambient
