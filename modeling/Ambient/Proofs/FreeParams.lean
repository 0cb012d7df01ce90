import Ambient.Proofs.Meaning
import Ambient.Scope.FreeParams
import Mathlib.Data.List.Induction

/-!
# The type parameters that a type depends on

`Scope.paramsOf` looks for the declared names that a type mentions, then for those that the bounds
and defaults of these mention, and so on. Each declared name brings in at most two types, once; so
the count it starts with is large enough to look at all of them (`wantedFrom_closed`).

What it looks through are the parameters that the entered nodes declare, which are those in force
(`Entered.lookup_declaredParams`). So a type parameter in force that the type mentions, or that the
bound or default of one of the type's parameters mentions, is one of the type's parameters
(`mem_paramsOf_of_mentioned`, `mem_paramsOf_of_limit`).
-/

namespace Ambient

/-! ## Ordered maps -/

section
variable {κ α : Type} [BEq κ] [LawfulBEq κ]

theorem lookup_put (k x : κ) (a : α) (l : List (κ × α)) :
    (put k a l).lookup x = if x == k then some a else l.lookup x := by
  induction l with
  | nil => rw [put, List.lookup_cons]; cases x == k <;> rfl
  | cons e l ih =>
    obtain ⟨k', a'⟩ := e
    rw [put]
    by_cases hk : k' = k
    · subst hk
      rw [if_pos (beq_self_eq_true k'), List.lookup_cons, List.lookup_cons]
      cases x == k' <;> rfl
    · rw [if_neg (by simpa using hk), List.lookup_cons, List.lookup_cons, ih]
      by_cases hx : x = k'
      · subst hx
        simp only [beq_false_of_ne hk, Bool.false_eq_true, if_false, beq_self_eq_true]
      · rw [beq_false_of_ne hx]

omit [LawfulBEq κ] in
theorem putAll_concat (pairs : List (κ × α)) (e : κ × α) :
    putAll (pairs ++ [e]) = put e.1 e.2 (putAll pairs) :=
  List.foldl_concat ..

theorem lookup_putAll (pairs : List (κ × α)) (x : κ) :
    (putAll pairs).lookup x = pairs.reverse.lookup x := by
  induction pairs using List.reverseRecOn with
  | nil => rfl
  | append_singleton pairs e ih =>
    rw [putAll_concat, lookup_put, ih, List.reverse_concat, List.lookup_cons]
    cases x == e.1 <;> rfl

theorem mem_of_lookup {l : List (κ × α)} {x : κ} {a : α} (h : l.lookup x = some a) : (x, a) ∈ l := by
  obtain ⟨l₁, l₂, rfl, -⟩ := List.lookup_eq_some_iff.1 h
  exact List.mem_append_right _ (.head _)

theorem keys_put (k : κ) (a : α) (l : List (κ × α)) :
    (put k a l).map Prod.fst =
      if k ∈ l.map Prod.fst then l.map Prod.fst else l.map Prod.fst ++ [k] := by
  induction l with
  | nil => simp [put]
  | cons e l ih =>
    rw [put]
    by_cases hk : e.1 = k
    · rw [if_pos (by simpa using hk), if_pos (by simp [hk])]
      rfl
    · rw [if_neg (by simpa using hk), List.map_cons, List.map_cons, ih]
      by_cases hmem : k ∈ l.map Prod.fst
      · rw [if_pos hmem, if_pos (.tail _ hmem)]
      · rw [if_neg hmem, if_neg (by simp [hmem, Ne.symm hk]), List.cons_append]

theorem nodup_keys_putAll (pairs : List (κ × α)) : ((putAll pairs).map Prod.fst).Nodup := by
  induction pairs using List.reverseRecOn with
  | nil => exact List.nodup_nil
  | append_singleton pairs e ih =>
    rw [putAll_concat, keys_put]
    split
    · exact ih
    · rename_i hk
      exact List.nodup_append.2 ⟨ih, by simp, fun x hx y hy hxy =>
        hk (List.mem_singleton.1 hy ▸ hxy ▸ hx)⟩

theorem lookup_of_mem {l : List (κ × α)} (hl : (l.map Prod.fst).Nodup) {x : κ} {a : α}
    (h : (x, a) ∈ l) : l.lookup x = some a := by
  obtain ⟨l₁, l₂, rfl⟩ := List.append_of_mem h
  refine List.lookup_eq_some_iff.2 ⟨l₁, l₂, rfl, fun e he => ?_⟩
  rw [List.map_append, List.nodup_append] at hl
  have hne : e.1 ≠ x := hl.2.2 e.1 (List.mem_map_of_mem he) x (.head _)
  simpa using Ne.symm hne

end

/-! ## What is wanted -/

variable {x : Ident} {s : Scope} {t : Ty} {p : TypeParam}

section
variable {declared : List (Ident × TypeParam)}

/-- The types that a parameter brings in. -/
def TypeParam.limits (p : TypeParam) : List Ty := p.default.toList ++ p.upperBound.toList

theorem TypeParam.length_limits_le (p : TypeParam) : p.limits.length ≤ 2 := by
  unfold limits
  cases p.default <;> cases p.upperBound <;> simp

/-- The declared names that the type mentions are wanted. -/
def Covered (declared : List (Ident × TypeParam)) (wanted : List Ident) (t : Ty) : Prop :=
  ∀ x ∈ t.simpleMentions, (declared.lookup x).isSome → x ∈ wanted

theorem Covered.mono {wanted wanted' : List Ident} (h : Covered declared wanted t)
    (hw : wanted ⊆ wanted') : Covered declared wanted' t :=
  fun x hx hd => hw (h x hx hd)

/-- The types that come with wanted names are still to be looked at, or covered. -/
def Awaits (declared : List (Ident × TypeParam)) (wanted : List Ident) (pending : List Ty) : Prop :=
  ∀ x ∈ wanted, ∀ p, declared.lookup x = some p → ∀ u ∈ p.limits,
    u ∈ pending ∨ Covered declared wanted u

/-- How many entries are not wanted. -/
def unwanted (declared : List (Ident × TypeParam)) (wanted : List Ident) : Nat :=
  declared.countP fun e => !wanted.contains e.1

theorem unwanted_lt {wanted : List Ident} (hx : x ∉ wanted) (hp : declared.lookup x = some p) :
    unwanted declared (wanted ++ [x]) < unwanted declared wanted := by
  have hle : ∀ l : List (Ident × TypeParam), unwanted l (wanted ++ [x]) ≤ unwanted l wanted :=
    fun l => List.countP_mono_left fun e _ h => by
      simp only [List.contains_append, Bool.not_or, Bool.and_eq_true] at h
      exact h.1
  obtain ⟨l₁, l₂, rfl, -⟩ := List.lookup_eq_some_iff.1 hp
  have h₁ := hle l₁
  have h₂ := hle l₂
  simp only [unwanted] at h₁ h₂ ⊢
  rw [List.countP_append, List.countP_append, List.countP_cons_of_neg (by simp),
    List.countP_cons_of_pos (by simpa using hx)]
  omega

/-- What looking at one type does: nothing wanted is lost, its declared names become wanted, what
comes with them is put before the types still to be looked at, and the count goes down. -/
theorem wantNames_spec (declared : List (Ident × TypeParam)) (xs : List Ident) (wanted : List Ident) (pending : List Ty) :
    let r := wantNames declared xs wanted pending
    wanted ⊆ r.1 ∧ pending ⊆ r.2 ∧ (∀ x ∈ xs, (declared.lookup x).isSome → x ∈ r.1) ∧
      (∀ x ∈ r.1, x ∉ wanted → ∀ p, declared.lookup x = some p → p.limits ⊆ r.2) ∧
      r.2.length + 2 * unwanted declared r.1 ≤ pending.length + 2 * unwanted declared wanted := by
  induction xs generalizing wanted pending with
  | nil =>
    exact ⟨List.Subset.refl _, List.Subset.refl _, List.forall_mem_nil _,
      fun x hx hn => absurd hx hn, Nat.le_refl _⟩
  | cons x xs ih =>
    rw [wantNames]
    split
    · rename_i hx
      obtain ⟨hw, hp, hxs, hnew, hlen⟩ := ih wanted pending
      refine ⟨hw, hp, fun y hy hd => ?_, hnew, hlen⟩
      rcases List.mem_cons.1 hy with rfl | hy
      · exact hw (by simpa using hx)
      · exact hxs y hy hd
    · rename_i hx
      have hx : x ∉ wanted := by simpa using hx
      split
      · rename_i hnone
        obtain ⟨hw, hp, hxs, hnew, hlen⟩ := ih wanted pending
        refine ⟨hw, hp, fun y hy hd => ?_, hnew, hlen⟩
        rcases List.mem_cons.1 hy with rfl | hy
        · simp [hnone] at hd
        · exact hxs y hy hd
      · rename_i p hsome
        obtain ⟨hw, hp, hxs, hnew, hlen⟩ := ih (wanted ++ [x]) (p.limits ++ pending)
        refine ⟨fun y hy => hw (List.mem_append_left _ hy),
          fun u hu => hp (List.mem_append_right _ hu), fun y hy hd => ?_, fun y hy hn p' hp' => ?_, ?_⟩
        · rcases List.mem_cons.1 hy with rfl | hy
          · exact hw (List.mem_append_right _ (.head _))
          · exact hxs y hy hd
        · by_cases hyx : y = x
          · subst hyx
            cases hsome.symm.trans hp'
            exact fun u hu => hp (List.mem_append_left _ hu)
          · exact hnew y hy (by simp [hn, hyx]) p' hp'
        · have hlt := unwanted_lt hx hsome
          have hle := p.length_limits_le
          rw [List.length_append] at hlen
          exact Nat.le_trans hlen (by omega)

/-- **All that is wanted is found**: with a large enough count, the declared names that the types
mention are wanted, and so are those that come with any wanted name. -/
theorem wantedFrom_closed (declared : List (Ident × TypeParam)) (n : Nat) (wanted : List Ident)
    (pending : List Ty)
    (hn : pending.length + 2 * unwanted declared wanted ≤ n)
    (hawaits : Awaits declared wanted pending) :
    let r := wantedFrom declared n wanted pending
    wanted ⊆ r ∧ (∀ t ∈ pending, Covered declared r t) ∧ Awaits declared r [] := by
  induction n generalizing wanted pending with
  | zero =>
    obtain rfl : pending = [] := List.eq_nil_of_length_eq_zero (by omega)
    exact ⟨List.Subset.refl _, List.forall_mem_nil _, hawaits⟩
  | succ n ih =>
    cases pending with
    | nil => exact ⟨List.Subset.refl _, List.forall_mem_nil _, hawaits⟩
    | cons t pending =>
      obtain ⟨hw, hp, hxs, hnew, hlen⟩ :=
        wantNames_spec declared t.simpleMentions wanted pending
      have haw' : Awaits declared (wantNames declared t.simpleMentions wanted pending).1
          (wantNames declared t.simpleMentions wanted pending).2 := by
        intro x hx p hpx u hu
        by_cases hold : x ∈ wanted
        · rcases hawaits x hold p hpx u hu with h | h
          · rcases List.mem_cons.1 h with rfl | h
            · exact .inr hxs
            · exact .inl (hp h)
          · exact .inr (h.mono hw)
        · exact .inl (hnew x hx hold p hpx hu)
      have hn' := Nat.le_trans hlen (by rw [List.length_cons] at hn; omega : _ ≤ n)
      obtain ⟨hsub, hcov, haw⟩ := ih _ _ hn' haw'
      refine ⟨fun x hx => hsub (hw hx), fun u hu => ?_, haw⟩
      rcases List.mem_cons.1 hu with rfl | hu
      · exact Covered.mono hxs hsub
      · exact hcov u (hp hu)

end

/-! ## The parameters in force -/

theorem foldl_params (ps : List TypeParam) (ts : List (Ident × TypeParam)) :
    ps.foldl (fun ts p => (p.name, p) :: ts) ts =
      (ps.map fun p => (p.name, p)).reverse ++ ts := by
  induction ps generalizing ts with
  | nil => rfl
  | cons p ps ih => rw [List.foldl_cons, ih]; simp

namespace Scope

/-- The parameters in force are those that the entered nodes declare, the last first. -/
theorem Entered.tparams_eq (h : s.Entered) :
    s.tparams = (s.stack.reverse.flatMap fun n => n.tparams.map fun p => (p.name, p)).reverse := by
  induction h with
  | root r => rfl
  | @enter s n _ ih =>
    have hstack : (s.enter n).stack = n :: s.stack := rfl
    have htps : (s.enter n).tparams =
      n.tparams.foldl (fun ts p => (p.name, p) :: ts) s.tparams := rfl
    rw [hstack, htps, foldl_params, ih, List.reverse_cons, List.flatMap_append,
      List.reverse_append, List.flatMap_singleton]

theorem Entered.lookup_declaredParams (h : s.Entered) (x : Ident) :
    (declaredParams s.stack.reverse).lookup x = s.tparam? x := by
  rw [declaredParams, lookup_putAll, tparam?, h.tparams_eq]

theorem mem_declaredParams_name {nodes : List Node} (h : (declaredParams nodes).lookup x = some p) :
    p.name = x := by
  rw [declaredParams, lookup_putAll] at h
  obtain ⟨n, -, hp⟩ := List.mem_flatMap.1 (List.mem_reverse.1 (mem_of_lookup h))
  obtain ⟨p', -, he⟩ := List.mem_map.1 hp
  cases he
  rfl

def wantedOf (s : Scope) (t : Ty) : List Ident :=
  wantedFrom (declaredParams s.stack.reverse) (2 * (declaredParams s.stack.reverse).length + 1)
    [] [t]

theorem wantedOf_closed (s : Scope) (t : Ty) :
    Covered (declaredParams s.stack.reverse) (s.wantedOf t) t ∧
      Awaits (declaredParams s.stack.reverse) (s.wantedOf t) [] := by
  have hle : unwanted (declaredParams s.stack.reverse) [] ≤
    (declaredParams s.stack.reverse).length := List.countP_le_length
  obtain ⟨-, hcov, haw⟩ := wantedFrom_closed (declaredParams s.stack.reverse)
    (2 * (declaredParams s.stack.reverse).length + 1) [] [t]
    (by rw [List.length_singleton]; omega) (List.forall_mem_nil _)
  exact ⟨hcov t (.head _), haw⟩

theorem Entered.mem_paramsOf (h : s.Entered) :
    p ∈ s.paramsOf t ↔ ∃ x ∈ s.wantedOf t, s.tparam? x = some p := by
  simp only [paramsOf, List.mem_map, List.mem_filter, List.contains_iff_mem, Prod.exists,
    exists_eq_right, ← h.lookup_declaredParams]
  constructor
  · rintro ⟨x, hmem, hx⟩
    exact ⟨x, hx, lookup_of_mem (nodup_keys_putAll _) hmem⟩
  · rintro ⟨x, hx, hl⟩
    exact ⟨x, mem_of_lookup hl, hx⟩

theorem Entered.tparam?_name (h : s.Entered) (hp : s.tparam? x = some p) : p.name = x :=
  mem_declaredParams_name (h.lookup_declaredParams x ▸ hp)

/-- **A type parameter in force that the type mentions is one of its parameters.** -/
theorem Entered.mem_paramsOf_of_mentioned (h : s.Entered) (hx : [x] ∈ t.mentions)
    (hp : s.tparam? x = some p) : p ∈ s.paramsOf t := by
  have hmem : x ∈ t.simpleMentions := List.mem_filterMap.2 ⟨[x], hx, rfl⟩
  refine h.mem_paramsOf.2 ⟨x, (s.wantedOf_closed t).1 x hmem ?_, hp⟩
  rw [h.lookup_declaredParams, hp]
  rfl

/-- **A type parameter in force that the bound or default of a parameter of the type mentions is one
of its parameters.** -/
theorem Entered.mem_paramsOf_of_limit (h : s.Entered) {p' : TypeParam} (hp' : p' ∈ s.paramsOf t)
    {u : Ty} (hu : u ∈ p'.limits) (hx : [x] ∈ u.mentions) (hp : s.tparam? x = some p) : p ∈ s.paramsOf t := by
  obtain ⟨y, hy, hyp⟩ := h.mem_paramsOf.1 hp'
  rw [← h.lookup_declaredParams] at hyp
  rcases (s.wantedOf_closed t).2 y hy p' hyp u hu with hnil | hcov
  · cases hnil
  have hmem : x ∈ u.simpleMentions := List.mem_filterMap.2 ⟨[x], hx, rfl⟩
  refine h.mem_paramsOf.2 ⟨x, hcov x hmem ?_, hp⟩
  rw [h.lookup_declaredParams, hp]
  rfl

end Scope

end Ambient
