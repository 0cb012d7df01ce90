import Ambient.Pass.Overloads

/-!
# Dropping repeated comments

Where no comment is repeated, nothing is dropped (`dropRepeated_eq_keep`), and where comments were
dropped none is repeated any more (`dropRepeated_unrepeated`).
-/

namespace Ambient

/-- No element repeats the name and the texts of one before it. -/
def Unrepeated {α : Type} (commented? : α → Option Commented) (as : List α) : Prop :=
  as.Pairwise fun a b => ∀ c, commented? a = some c → commented? b = some c → c.2 = []

variable {seen : List Commented} {α : Type}

theorem unrepeated_iff {commented? : α → Option Commented} {as : List α} :
    Unrepeated commented? as ↔
      (as.map commented?).Pairwise fun x y => ∀ c, x = some c → y = some c → c.2 = [] := by
  rw [List.pairwise_map]
  exact Iff.rfl

theorem Unrepeated.of_map_eq {commented? : α → Option Commented} {as as' : List α}
    (h : Unrepeated commented? as) (heq : as'.map commented? = as.map commented?) :
    Unrepeated commented? as' := by
  rw [unrepeated_iff, heq]
  exact unrepeated_iff.1 h

theorem dropRepeated_eq_keep {commented? : α → Option Commented} {strip : α → α} {as : List α}
    (h : Unrepeated commented? as) (hseen : ∀ a ∈ as, ∀ c ∈ seen, commented? a = some c → c.2 = []) :
    dropRepeated commented? strip seen as = .keep as := by
  induction as generalizing seen with
  | nil => rfl
  | cons a as ih =>
    obtain ⟨ha, has⟩ := List.pairwise_cons.1 h
    have hrest : ∀ b ∈ as, ∀ c ∈ seen, commented? b = some c → c.2 = [] :=
      fun b hb => hseen b (.tail _ hb)
    unfold dropRepeated
    split
    · rw [ih has hrest]
      rfl
    · rw [ih has hrest]
      rfl
    · rename_i c hne hc
      have hnew : seen.contains c = false := by
        refine Bool.eq_false_iff.2 fun hmem => ?_
        have hnil := hseen a (.head _) c (by simpa using hmem) hc
        exact hne c.1 (by rw [← hnil])
      rw [if_neg (by rw [hnew]; decide), ih has fun b hb c' hc' hb' => ?_]
      · rfl
      · rcases List.mem_append.1 hc' with hc' | hc'
        · exact hrest b hb c' hc' hb'
        · obtain rfl := List.mem_singleton.1 hc'
          exact ha b hb c' hc hb'

/-- The element, or what is left of it if it is one that comments are dropped from. -/
def Dropped {α : Type} (commented? : α → Option Commented) (strip : α → α) (a a' : α) : Prop :=
  a' = a ∨ (commented? a).isSome ∧ a' = strip a

/-- The element has the name and the texts of one of `seen`, and there are texts. -/
def Repeated {α : Type} (commented? : α → Option Commented) (seen : List Commented) (a : α) : Prop :=
  ∃ c ∈ seen, commented? a = some c ∧ c.2 ≠ []

/-- The first element loses its comments if it repeats what was seen. Then its texts are seen too, and the
others are gone through in the same way. -/
theorem dropRepeated_cons (commented? : α → Option Commented) (strip : α → α) (seen : List Commented)
    (a : α) (as : List α) :
    ∃ a' seen', (dropRepeated commented? strip seen (a :: as)).value =
        a' :: (dropRepeated commented? strip seen' as).value ∧
      (Repeated commented? seen a ∧ a' = strip a ∨ ¬ Repeated commented? seen a ∧ a' = a) ∧
      ∀ c, c.2 ≠ [] → (c ∈ seen' ↔ c ∈ seen ∨ commented? a = some c) := by
  rw [dropRepeated]
  split
  · rename_i hnone
    refine ⟨a, seen, rfl, .inr ⟨?_, rfl⟩, fun c _ => by simp [hnone]⟩
    rintro ⟨c, -, hc, -⟩
    cases hnone.symm.trans hc
  · rename_i x hx
    refine ⟨a, seen, rfl, .inr ⟨?_, rfl⟩, fun c hc => ?_⟩
    · rintro ⟨c, -, hc, hne⟩
      cases hx.symm.trans hc
      exact hne rfl
    · refine ⟨.inl, fun h => h.resolve_right fun hc' => ?_⟩
      cases hx.symm.trans hc'
      exact hc rfl
  · rename_i c hne hc
    have hnonempty : c.2 ≠ [] := fun hnil => hne c.1 (by rw [← hnil])
    split
    · rename_i hmem
      have hmem : c ∈ seen := by simpa using hmem
      refine ⟨strip a, seen, rfl, .inl ⟨⟨c, hmem, hc, hnonempty⟩, rfl⟩, fun c' _ => ?_⟩
      refine ⟨.inl, fun h => h.elim id fun hc' => ?_⟩
      cases hc.symm.trans hc'
      exact hmem
    · rename_i hnew
      refine ⟨a, seen ++ [c], rfl, .inr ⟨?_, rfl⟩, fun c' _ => ?_⟩
      · rintro ⟨c', hmem, hc', -⟩
        cases hc.symm.trans hc'
        exact hnew (by simpa using hmem)
      · rw [List.mem_append, List.mem_singleton, hc, Option.some_inj, eq_comm (a := c)]

theorem Dropped.of_repeated {commented? : α → Option Commented} {strip : α → α} {a a' : α}
    (h : Repeated commented? seen a ∧ a' = strip a ∨ ¬ Repeated commented? seen a ∧ a' = a) :
    Dropped commented? strip a a' := by
  rcases h with ⟨⟨c, -, hc, -⟩, rfl⟩ | ⟨-, rfl⟩
  · exact .inr ⟨by rw [hc]; rfl, rfl⟩
  · exact .inl rfl

theorem dropRepeated_unchanged {commented? : α → Option Commented} {strip : α → α} {as : List α}
    (h : (dropRepeated commented? strip seen as).changed = false) :
    (dropRepeated commented? strip seen as).value = as := by
  induction as generalizing seen with
  | nil => rfl
  | cons a as ih =>
    rw [dropRepeated] at h ⊢
    split at h
    · exact congrArg (a :: ·) (ih h)
    · exact congrArg (a :: ·) (ih h)
    · split at h
      · cases h
      · rename_i hnew
        rw [if_neg hnew]
        exact congrArg (a :: ·) (ih h)

/-- What is stripped has no texts left, so in the end no texts are repeated. -/
theorem dropRepeated_unrepeated {commented? : α → Option Commented} {strip : α → α}
    (hstrip : ∀ a c, commented? a = some c → commented? (strip a) = some (c.1, []))
    (seen : List Commented) (as : List α) :
    Unrepeated commented? (dropRepeated commented? strip seen as).value ∧
      ∀ a ∈ (dropRepeated commented? strip seen as).value, ∀ c ∈ seen, commented? a = some c →
        c.2 = [] := by
  induction as generalizing seen with
  | nil => exact ⟨.nil, fun _ h => by cases h⟩
  | cons a as ih =>
    obtain ⟨a', seen', heq, ha, hseen⟩ := dropRepeated_cons commented? strip seen a as
    have hhead : ∀ c, commented? a' = some c → c.2 ≠ [] → c ∉ seen ∧ commented? a = some c := by
      intro c hc hne
      rcases ha with ⟨⟨c', -, hc', -⟩, rfl⟩ | ⟨hnew, rfl⟩
      · cases (hstrip a c' hc').symm.trans hc
        exact absurd rfl hne
      · exact ⟨fun hmem => hnew ⟨c, hmem, hc, hne⟩, hc⟩
    have hrest : ∀ b ∈ (dropRepeated commented? strip seen' as).value, ∀ c, c.2 ≠ [] →
        c ∈ seen ∨ commented? a = some c → commented? b ≠ some c :=
      fun b hb c hne hc hb' => hne ((ih seen').2 b hb c ((hseen c hne).2 hc) hb')
    rw [heq]
    refine ⟨.cons (fun b hb c hc hb' => ?_) (ih seen').1, List.forall_mem_cons.2 ⟨?_, ?_⟩⟩
    · exact Classical.byContradiction fun hne => hrest b hb c hne (.inr (hhead c hc hne).2) hb'
    · exact fun c hmem hc => Classical.byContradiction fun hne => (hhead c hc hne).1 hmem
    · exact fun b hb c hmem hc => Classical.byContradiction fun hne => hrest b hb c hne (.inl hmem) hc

theorem Comments.rawTexts_markersOnly (cs : Comments) : cs.markersOnly.rawTexts = [] := by
  rw [rawTexts, markersOnly, List.filterMap_eq_nil_iff]
  intro c hc
  cases c with
  | raw text => exact nomatch (List.mem_filter.1 hc).2
  | marker m => rfl

theorem Decl.commented?_strip (d : Decl) (c : Commented) (h : d.commented? = some c) :
    d.strip.commented? = some (c.1, []) := by
  cases d with
  | function f =>
    cases h
    exact congrArg (fun texts => some (f.name, texts)) f.info.comments.rawTexts_markersOnly
  | _ => cases h

theorem Member.commented?_strip (m : Member) (c : Commented) (h : m.commented? = some c) :
    m.strip.commented? = some (c.1, []) := by
  cases m with
  | function f =>
    cases h
    exact congrArg (fun texts => some (f.name, texts)) f.info.comments.rawTexts_markersOnly
  | _ => cases h

end Ambient
