import Ambient.Proofs.Memory

/-!
# What a name means in a scope

The meaning of a name is all that it denotes, without a memory and in a search of its own
(`Scope.meaning`). A search with a faithful memory finds the same (`lookup_meaning`).

Where a scope is not directly inside a container, a name means what it means in the innermost
container around (`meaning_innermost`), except in two cases: a type parameter or mapped-type key
stands in between, or the container has an import or export that looks up the very same name, which
then is in the way of itself.
-/

namespace Ambient

/-! ## Meanings -/

/-- What the name denotes in the scope, as far as it is picked. -/
def Scope.denotes (s : Scope) (picker : Picker) (q : QIdent) : List Found :=
  match (Query.lookup s picker q).ask.run {} with
  | .ok (fs, _) => fs
  | .error _ => []

/-- All that the name denotes in the scope. -/
def Scope.meaning (s : Scope) (q : QIdent) : List Found := s.denotes .all q

theorem Scope.denotes_spec (s : Scope) (picker : Picker) (q : QIdent) :
    ∃ σ, ∀ n ≥ s.searchBound 1, (answerWithin n [] (.name picker s q)).run {} =
      .ok (s.denotes picker q, σ) := by
  have hends : (Query.lookup s picker q).Ends [] {} := Query.ends_of_faithful
    (Query.lookup s picker q).in_territory [] (Session.faithful_of_none _ rfl)
  obtain ⟨⟨fs, σ⟩, hrun, hbound⟩ := hends.answer
  have hden : s.denotes picker q = fs := by
    rw [denotes, Query.ask, afresh_run, hrun]
    rfl
  refine ⟨σ, fun n hn => ?_⟩
  rw [hden, ← Query.run_about]
  exact hbound n hn

variable {q : QIdent} {s c : Scope} {σ : Session} {T : Territory}

theorem lookup_meaning (hT : T.Numbered) (hs : T.scope s) (hq : T.name s q) (hσ : σ.Faithful T.realm) :
    ∃ σ', (Resolve.afresh (s.lookupWith .all q [])).run σ = .ok (s.meaning q, σ') ∧
      σ'.Faithful T.realm := by
  have hQ : (Query.lookup s .all q).In T.realm :=
    .about ⟨hs, hq, fun _ => rfl⟩ fun _ _ => trivial
  have hplain : (Query.lookup s .all q).Plain := rfl
  obtain ⟨fs, σ₁, hrun, hnone⟩ := (hplain.unmixed hT hQ).ask_eq hT.apart hQ hσ
  obtain ⟨fs', σ₂, hrun', hσ₂, -⟩ := Query.ask_faithful hQ hσ
  cases hrun.symm.trans hrun'
  have hmng : s.meaning q = fs := by
    rw [Scope.meaning, Scope.denotes, hnone]
  exact ⟨σ₁, hmng ▸ hrun, hσ₂⟩

/-! ## Trails that do not matter -/

theorem run_congr {D : Realm} {answer answer' : (q : Question) → Resolve q.Answer}
    (hans : AnswersWell D answer)
    (h : ∀ q σ, D.asked q → σ.Faithful D → (answer q).run σ = (answer' q).run σ) {α : Type}
    {post : α → Prop} {p : Search α} (hp : p.Ensures D.asked D.given post) (hσ : σ.Faithful D) :
    (p.run answer).run σ = (p.run answer').run σ := by
  induction p generalizing σ with
  | done a => rfl
  | ask q next ih =>
    simp only [Search.run, StateT.run_bind, ← h q σ hp.1 hσ]
    cases hq : (answer q).run σ with
    | error e => rfl
    | ok r =>
      obtain ⟨hg, hafter⟩ := hans q σ r.1 r.2 hp.1 hσ hq
      exact ih r.1 (hp.2 r.1 hg) hafter.faithful

theorem memoized_congr {q : Question} {c c' : Resolve q.Answer} (h : c.run σ = c'.run σ) :
    (Resolve.memoized q c).run σ = (Resolve.memoized q c').run σ := by
  cases hm : σ.memo with
  | none => rw [memoized_of_none hm, memoized_of_none hm, h]
  | some m =>
    cases hf : m.find? q with
    | some a => rw [memoized_of_hit hm hf, memoized_of_hit hm hf]
    | none => rw [memoized_of_miss hm hf, memoized_of_miss hm hf, h]

/-- **Two trails with the same pairs of the realm's questions** lead to the same answers. -/
theorem answerWithin_congr_trail {D : Realm} : ∀ (n : Nat) {T T' : Trail},
    (∀ q p, D.asked q → q.pair? = some p → (p ∈ T ↔ p ∈ T')) →
    ∀ (q : Question) (σ : Session), D.asked q → σ.Faithful D →
      (answerWithin n T q).run σ = (answerWithin n T' q).run σ
  | 0, _, _, _, _, _, _, _ => rfl
  | n + 1, T, T', h, q, σ, hq, hσ => by
    have hcut : q.CutOn T ↔ q.CutOn T' :=
      exists_congr fun p => and_congr_right fun hp => h q p hq hp
    by_cases hc : q.CutOn T
    · rw [answerWithin_cut hc, answerWithin_cut (hcut.1 hc)]
    · rw [answerWithin_open hc, answerWithin_open fun hc' => hc (hcut.2 hc')]
      refine memoized_congr (run_congr (answerWithin_after D n _) ?_ (D.search q hq) hσ)
      intro q' σ' hq' hσ'
      refine answerWithin_congr_trail n (fun e p he hp => ?_) q' σ' hq' hσ'
      simp only [Question.trail, List.mem_append, h e p he hp]

/-! ## Containers around -/

/-- A scope that was reached by entering nodes. -/
inductive Scope.Entered : Scope → Prop
  | root (r : Root) : Entered (Scope.ofRoot r)
  | enter {s : Scope} (n : Node) : Entered s → Entered (s.enter n)

theorem isSome_lookup_foldl {x : Ident} (ps : List TypeParam) {ts : List (Ident × TypeParam)} :
    ((ps.foldl (fun ts p => (p.name, p) :: ts) ts).lookup x).isSome = true ↔
      x ∈ ps.map (·.name) ∨ (ts.lookup x).isSome = true := by
  induction ps generalizing ts with
  | nil => simp
  | cons p ps ih =>
    rw [List.foldl_cons, ih, List.lookup_cons, List.map_cons, List.mem_cons]
    by_cases hx : x = p.name
    · simp [hx]
    · rw [beq_false_of_ne hx]
      simp [hx]

namespace Scope

theorem isAbstract_enter {n : Node} {x : Ident} : (s.enter n).isAbstract [x] = true ↔
    x ∈ n.tparams.map (·.name) ∨ n.typeKey? = some x ∨ s.isAbstract [x] = true := by
  have hkey : x ∈ n.typeKey?.toList ++ s.tkeys ↔ n.typeKey? = some x ∨ x ∈ s.tkeys := by simp
  simp only [isAbstract, tparam?, tkeys, tparams, enter, Bool.or_eq_true, isSome_lookup_foldl,
    List.contains_iff_mem] at hkey ⊢
  rw [hkey]
  grind

theorem Entered.isAbstract_of_outwards (h : s.Entered) (hc : c ∈ s.outwards)
    (hq : c.isAbstract q = true) : s.isAbstract q = true := by
  induction h with
  | root r =>
    obtain rfl := List.mem_singleton.1 hc
    exact hq
  | @enter s n _ ih =>
    rcases List.mem_cons.1 hc with rfl | hc
    · exact hq
    have hs := ih hc
    match q with
    | [] => cases hs
    | _ :: _ :: _ => cases hs
    | [x] => exact isAbstract_enter.2 (.inr (.inr hs))

theorem fileScope?_eq (s : Scope) : s.fileScope? = (s.outwards.filter isContainer).find? isFile := by
  rw [List.find?_filter, fileScope?]
  congr 1
  funext s'
  cases hf : s'.isFile with
  | false => simp
  | true => simp [isContainer_of_isFile hf]

theorem members_eq_nil (h : s.isContainer = false) : s.members = [] := by
  unfold members
  cases hn : s.current? with
  | none => rfl
  | some n =>
    have hm : n.members? = none := by simpa [isContainer, hn, Node.isContainer] using h
    simp [hm]

/-- The innermost container around has the same containers around. A scope that is not that container
has no members. -/
theorem containers_innermost {cs : List Scope} (h : s.outwards.filter isContainer = c :: cs) :
    c ∈ s.outwards ∧ c.outwards.filter isContainer = c :: cs ∧ (s = c ∨ s.members = []) := by
  obtain ⟨root, frames⟩ := s
  induction frames with
  | nil => simp [outwards, outwardsFrom, isContainer, current?] at h
  | cons f fs ih =>
    cases hf : (Scope.mk root (f :: fs)).isContainer with
    | true =>
      have hc : Scope.mk root (f :: fs) = c := by
        simp only [outwards, outwardsFrom, List.filter_cons, hf, if_true, List.cons.injEq] at h
        exact h.1
      subst hc
      exact ⟨self_mem_outwards _, h, .inl rfl⟩
    | false =>
      have h' : (Scope.mk root fs).outwards.filter isContainer = c :: cs := by
        simpa only [outwards, outwardsFrom, List.filter_cons, hf, if_false, Bool.false_eq_true]
          using h
      obtain ⟨hc, hcs, -⟩ := ih h'
      exact ⟨.tail _ hc, hcs, .inr (members_eq_nil hf)⟩

theorem dependencyScopes_congr (h : s.root = c.root) : s.dependencyScopes = c.dependencyScopes := by
  have hscope : s.dependencyScope? = c.dependencyScope? := by
    funext x
    simp only [dependencyScope?, dependencyRoot?, h]
  rw [dependencyScopes, dependencyScopes, hscope, h]

theorem lookupThrough_congr (hroot : s.root = c.root)
    (hc : s.outwards.filter isContainer = c.outwards.filter isContainer) (picker : Picker)
    (head : Ident) (tail : List Ident) :
    lookupThrough picker s head tail = lookupThrough picker c head tail := by
  have hfile : s.fileScope? = c.fileScope? := by rw [fileScope?_eq, fileScope?_eq, hc]
  have hdeps := dependencyScopes_congr hroot
  have hmods : s.moduleScopes head = c.moduleScopes head := by
    simp only [moduleScopes, dependencyRoot?, hfile, hdeps, hroot]
  have haug : s.augmentations = c.augmentations := by simp only [augmentations, hfile]
  simp only [lookupThrough, hc, hmods, haug, hdeps]

end Scope

/-! ## The innermost container -/

/-- The same territory, for names that imports and exports look up where they stand. -/
def Territory.strictly (T : Territory) : Territory :=
  { T with
    stands := fun s d => d ∈ s.members
    name := fun s q => ∃ d ∈ s.members, q ∈ d.lookedUp
    plain := True
    member := fun _ h => h
    exportee := fun hs h => T.held hs (.inr (.inl ⟨_, h⟩))
    lookedUp := fun _ hd hq => ⟨_, hd, hq⟩
    followed := fun h => absurd trivial h
    target := T.plainly.target
    part := T.plainly.part
    tyName := fun h => absurd trivial h }

/-- The pair of a name is taken up again only for an import or export that looks up the name where
it stands. -/
theorem Territory.Numbered.lookedUp_of_pair (hT : T.Numbered) (hs : T.scope s) {e : Question}
    (he : T.strictly.asked e) (hp : e.pair? = some (s.key, .name q)) : ∃ d ∈ s.members, q ∈ d.lookedUp := by
  cases e with
  | name picker s' q' =>
    simp only [Question.pair?] at hp
    split at hp
    · cases hp
    · have hk := Prod.mk.inj (Option.some.inj hp)
      obtain rfl := hT.scope he.1 hs hk.1
      cases hk.2
      exact he.2.1
  | imported s' i | exported s' h e => cases (Prod.mk.inj (Option.some.inj hp)).2
  | members s q | contribution f | keys s t | aliasKeys f t | ctors s q targs | ctorsOf f c =>
    exact absurd trivial he.1

/-- Without a memory, the search of a name that is not settled gives what its search gives on the
trail of the name alone. -/
theorem answerWithin_name {picker : Picker} {head : Ident} {tail : List Ident}
    (hs : s.isSettled (head :: tail) = false) (n : Nat) (hσ : σ.memo = none) :
    (answerWithin (n + 1) [] (.name picker s (head :: tail))).run σ =
      ((lookupThrough picker s head tail).run
        (answerWithin n [(s.key, .name (head :: tail))])).run σ := by
  have hcut : ¬ (Question.name picker s (head :: tail)).CutOn [] := by
    rintro ⟨p, -, hp⟩
    exact List.not_mem_nil hp
  rw [answerWithin_open hcut, memoized_of_none hσ]
  simp [Question.search, nameSearch, Question.trail, Question.pair?, hs]

theorem meaning_of_settled (h : s.isSettled q = true) : s.meaning q = [] := by
  obtain ⟨σ, hspec⟩ := s.denotes_spec .all q
  have hcut : ¬ (Question.name .all s q).CutOn [] := by
    rintro ⟨p, -, hp⟩
    exact List.not_mem_nil hp
  have hsrch : (Question.name .all s q).search = .done [] := by
    cases q with
    | nil => rfl
    | cons head tail => simp [Question.search, nameSearch, h]
  have hrun := hspec (s.searchBound 1 + 1) (Nat.le_succ _)
  rw [answerWithin_open hcut, memoized_of_none rfl, hsrch] at hrun
  exact (Prod.mk.inj (Except.ok.inj hrun)).1.symm

/-- In a scope where no import or export looks up the name, the pair of the name is not taken up
again. -/
theorem Territory.Numbered.run_without (hT : T.Numbered) (hs : T.scope s)
    (hq : ∀ d ∈ s.members, q ∉ d.lookedUp) {α : Type} {post : α → Prop} {p : Search α}
    (hp : p.Ensures T.strictly.asked T.strictly.given post) (n : Nat) (hσ : σ.memo = none) :
    (p.run (answerWithin n [(s.key, .name q)])).run σ = (p.run (answerWithin n [])).run σ := by
  have htrail : ∀ e pair, T.strictly.realm.asked e → e.pair? = some pair →
      (pair ∈ [(s.key, .name q)] ↔ pair ∈ ([] : Trail)) := by
    intro e pair he hpair
    refine ⟨fun h => ?_, fun h => absurd h List.not_mem_nil⟩
    obtain rfl := List.mem_singleton.1 h
    obtain ⟨d, hd, hdq⟩ := hT.lookedUp_of_pair hs he hpair
    exact absurd hdq (hq d hd)
  exact run_congr (answerWithin_after T.strictly.realm n _)
    (fun e σ he hσ => answerWithin_congr_trail n htrail e σ he hσ) hp
    (Session.faithful_of_none _ hσ)

/-- **A name means the same in two scopes with the same containers around**, if it is abstract in neither,
and neither has an import or export that looks it up there. The two searches are the same, but for the
pair that the trail starts with, and none of their questions takes up either pair again. -/
theorem meaning_congr (hT : T.Numbered) (hs : T.scope s) (hc : T.scope c) (hroot : s.root = c.root)
    (hconts : s.outwards.filter Scope.isContainer = c.outwards.filter Scope.isContainer)
    (hsq : s.isAbstract q = false) (hcq : c.isAbstract q = false)
    (hups : ∀ d ∈ s.members, q ∉ d.lookedUp) (hupc : ∀ d ∈ c.members, q ∉ d.lookedUp) :
    s.meaning q = c.meaning q := by
  have hset : s.isSettled q = c.isSettled q := by simp only [Scope.isSettled, hsq, hcq]
  cases h : s.isSettled q with
  | true => rw [meaning_of_settled h, meaning_of_settled (hset ▸ h)]
  | false =>
    match q with
    | [] => simp [Scope.isSettled] at h
    | head :: tail =>
      obtain ⟨σ, hspec⟩ := s.denotes_spec .all (head :: tail)
      obtain ⟨σ', hspec'⟩ := c.denotes_spec .all (head :: tail)
      let n := max (s.searchBound 1) (c.searchBound 1)
      have hrun := hspec (n + 1) (Nat.le_succ_of_le (Nat.le_max_left _ _))
      have hrun' := hspec' (n + 1) (Nat.le_succ_of_le (Nat.le_max_right _ _))
      have hp := Territory.picks_lookupThrough .all (T := T.strictly) hs head tail
      rw [answerWithin_name h n rfl, hT.run_without hs hups hp n rfl] at hrun
      rw [answerWithin_name (hset ▸ h) n rfl, ← Scope.lookupThrough_congr hroot hconts,
        hT.run_without hc hupc hp n rfl, hrun] at hrun'
      exact (Prod.mk.inj (Except.ok.inj hrun')).1

/-- **A name means what it means in the innermost container around**, if it is not abstract, and the
container has no import or export that looks it up there. -/
theorem meaning_innermost (hT : T.Numbered) (hs : T.scope s) (hent : s.Entered) {cs : List Scope}
    (hc : s.outwards.filter Scope.isContainer = c :: cs) (hq : s.isAbstract q = false)
    (hup : ∀ d ∈ c.members, q ∉ d.lookedUp) : s.meaning q = c.meaning q := by
  obtain ⟨hmem, hcs, hsc⟩ := Scope.containers_innermost hc
  have hcT : T.scope c :=
    T.container hs hmem (List.mem_filter.1 (hc ▸ List.mem_cons_self : c ∈ _)).2
  have hups : ∀ d ∈ s.members, q ∉ d.lookedUp := by
    rcases hsc with rfl | hsc
    · exact hup
    · rw [hsc]
      exact List.forall_mem_nil _
  have hcq : c.isAbstract q = false := by
    cases hcq : c.isAbstract q with
    | false => rfl
    | true => rw [hent.isAbstract_of_outwards hmem hcq] at hq; cases hq
  exact meaning_congr hT hs hcT (Scope.mem_outwards.1 hmem).1.symm (hc.trans hcs.symm) hq hcq hups hup

end Ambient
