import Ambient.Proofs.FreshNames
import Ambient.Proofs.Keys

/-!
# The first free name

The names tried for a type form one sequence (`nameAt`): the stem followed by more and more fragments, and then
by all of them and a number. The search goes through it from its start (`deriveName_eq_find?`).

Names with different numbers are different, so if only finitely many names are taken, the search comes to an
end and gives the first of the sequence that is free (`deriveName_first_free`).
-/

namespace Ambient

/-! ## The names in the order of trial -/

/-- The name at a place of the sequence: the stem, as many fragments as the place says and there are, and how
far the place is beyond the fragments. -/
def nameAt (stem : String) (fs : List String) (n : Nat) : Ident :=
  stem ++ String.join (fs.take n) ++ if n ≤ fs.length then "" else toString (n - fs.length)

/-- Where the sequence starts. The stem alone is tried only if there are no fragments, and if it is a name. -/
def firstPlace (stem : String) (fs : List String) : Nat :=
  if fs = [] ∧ stem ≠ "" then 0 else 1

section
variable {stem : String} {fs : List String} {n : Nat}

theorem nameAt_beyond (stem : String) (fs : List String) (k : Nat) :
    nameAt stem fs (fs.length + 1 + k) = stem ++ String.join fs ++ toString (1 + k) := by
  rw [nameAt, if_neg (by omega), List.take_of_length_le (by omega)]
  congr 2
  omega

theorem nameAt_cons (stem f : String) (fs : List String) (n : Nat) :
    nameAt stem (f :: fs) (n + 1) = nameAt (stem ++ f) fs n := by
  simp only [nameAt, List.take_succ_cons, String.join_cons, String.append_assoc, List.length_cons,
    Nat.add_le_add_iff_right, Nat.add_sub_add_right]

theorem firstPlace_cons (stem f : String) (fs : List String) : firstPlace stem (f :: fs) = 1 :=
  if_neg fun h => List.cons_ne_nil f fs h.1

theorem firstPlace_le_one (stem : String) (fs : List String) : firstPlace stem fs ≤ 1 := by
  unfold firstPlace
  split <;> omega

theorem nameAt_ne_empty (hfs : "" ∉ fs) (hn : firstPlace stem fs ≤ n) : nameAt stem fs n ≠ "" := by
  cases fs with
  | nil =>
    by_cases hstem : stem = ""
    · rw [firstPlace, if_neg (by simp [hstem])] at hn
      simp [nameAt, Nat.ne_of_gt hn]
    · simp [nameAt, hstem]
  | cons f fs =>
    rw [firstPlace_cons] at hn
    obtain ⟨n, rfl⟩ := Nat.exists_eq_add_of_le' hn
    have hf : f ≠ "" := fun h => hfs (h ▸ .head _)
    simp [nameAt, hf]

theorem grow_eq (stem : String) (fs : List String) :
    grow stem fs = (List.range' 1 fs.length).map (nameAt stem fs) := by
  induction fs generalizing stem with
  | nil => rfl
  | cons f fs ih =>
    have hshift : List.range' 2 fs.length = (List.range' 1 fs.length).map (1 + ·) :=
      (List.map_add_range' 1 fs.length 1).symm
    rw [grow, ih, List.length_cons, List.range'_succ, List.map_cons, hshift, List.map_map]
    congr 1
    · simp [nameAt]
    · refine List.map_congr_left fun n _ => ?_
      rw [Function.comp_apply, Nat.add_comm, nameAt_cons]

theorem candidates_eq_map (stem : String) (ms : List Member) :
    candidates stem ms = (List.range' (firstPlace stem (fragments ms))
      ((fragments ms).length + 1 - firstPlace stem (fragments ms))).map (nameAt stem (fragments ms)) := by
  unfold candidates
  cases hfs : fragments ms with
  | nil =>
    by_cases hstem : stem = ""
    · simp [hstem, firstPlace]
    · simp [hstem, firstPlace, nameAt]
  | cons f fs =>
    rw [firstPlace_cons]
    exact grow_eq stem (f :: fs)

theorem longest_candidate (stem : String) (ms : List Member) :
    (candidates stem ms).getLast?.getD stem = stem ++ String.join (fragments ms) := by
  rw [candidates_eq_map, List.getLast?_map, List.getLast?_range']
  cases hfs : fragments ms with
  | nil =>
    by_cases hstem : stem = ""
    · simp [hstem, firstPlace]
    · simp [hstem, firstPlace, nameAt]
  | cons f fs =>
    rw [firstPlace_cons]
    simp [nameAt]

end

section
variable {m : Type → Type} [Monad m] [LawfulMonad m] (isFree : Ident → Bool)

theorem firstFree_pure (xs : List Ident) :
    firstFree (fun x => (pure (isFree x) : m Bool)) xs = pure (xs.find? isFree) := by
  induction xs with
  | nil => rfl
  | cons x xs ih =>
    rw [firstFree, pure_bind, ih, List.find?_cons]
    cases isFree x <;> rfl

theorem firstFreeNumbered_pure (stem : String) (fs : List String) (k limit : Nat) :
    firstFreeNumbered (fun x => (pure (isFree x) : m Bool)) (stem ++ String.join fs) (1 + k) limit =
      pure (((List.range' (fs.length + 1 + k) limit).map (nameAt stem fs)).find? isFree) := by
  induction limit generalizing k with
  | zero => rfl
  | succ limit ih =>
    rw [firstFreeNumbered, pure_bind, Nat.add_assoc, ih, List.range'_succ, List.map_cons, List.find?_cons,
      nameAt_beyond]
    cases isFree (stem ++ String.join fs ++ toString (1 + k)) <;> rfl

/-- The search goes through the sequence of names, as far as there are fragments and then as many numbers as the
limit says. -/
theorem deriveName_eq_find? (limit : Nat) (stem : String) (ms : List Member) :
    deriveName (fun x => (pure (isFree x) : m Bool)) limit stem ms =
      pure (((List.range' (firstPlace stem (fragments ms))
        ((fragments ms).length + 1 - firstPlace stem (fragments ms) + limit)).map
          (nameAt stem (fragments ms))).find? isFree) := by
  have hfirst : firstPlace stem (fragments ms) + 1 * ((fragments ms).length + 1 - firstPlace stem (fragments ms)) =
      (fragments ms).length + 1 := by
    have := firstPlace_le_one stem (fragments ms)
    omega
  rw [deriveName, firstFree_pure, pure_bind, ← List.range'_append, hfirst, List.map_append, List.find?_append,
    ← candidates_eq_map, longest_candidate]
  cases (candidates stem ms).find? isFree with
  | some x => rfl
  | none => exact firstFreeNumbered_pure isFree stem (fragments ms) 0 limit

end

theorem empty_not_mem_fragments (ms : List Member) : "" ∉ fragments ms := by
  intro h
  have := (distinct_sublist _).mem h
  simp at this

/-- The sequence has a first free name, and it is found within as many numbers as names are taken and one more. -/
theorem exists_first_free {isFree : Ident → Bool} {taken : List Ident}
    (htaken : ∀ x, isFree x = false → x ∈ taken) (stem : String) (fs : List String) :
    ∃ n ≥ firstPlace stem fs, isFree (nameAt stem fs n) = true ∧
      (∀ k < n, firstPlace stem fs ≤ k → isFree (nameAt stem fs k) = false) ∧
      ∀ limit > taken.length,
        (List.range' (firstPlace stem fs) (fs.length + 1 - firstPlace stem fs + limit)).find?
          (isFree ∘ nameAt stem fs) = some n := by
  have hone := firstPlace_le_one stem fs
  have hlen : ([] : List String).length + taken.length < taken.length + 1 := by simp
  obtain ⟨k, hk, -, hnot⟩ := exists_free_number (stem ++ String.join fs) 1 _ hlen
  have hfree : isFree (nameAt stem fs (fs.length + 1 + k)) = true := by
    rw [nameAt_beyond]
    exact eq_true_of_ne_false fun h => hnot (htaken _ h)
  -- Within so many numbers there is a free one, so a first one is found; a larger limit finds the same.
  obtain ⟨n, hn⟩ := Option.isSome_iff_exists.1 (List.find?_isSome.2 ⟨_, List.mem_range'_1.2
    ⟨by omega, by omega⟩, hfree⟩ : ((List.range' (firstPlace stem fs) (fs.length + 1 - firstPlace stem fs +
      (taken.length + 1))).find? (isFree ∘ nameAt stem fs)).isSome = true)
  obtain ⟨hn, hmem, hbefore⟩ := List.find?_range'_eq_some.1 hn
  obtain ⟨hfirst, hlt⟩ := List.mem_range'_1.1 hmem
  refine ⟨n, hfirst, hn, fun k hk hplace => by simpa using hbefore k hplace hk, fun limit hlimit => ?_⟩
  exact List.find?_range'_eq_some.2 ⟨hn, List.mem_range'_1.2 ⟨hfirst, by omega⟩, hbefore⟩

/-- **The first free name.** If all names that are taken are in some list, the search ends within as many
numbers as the list is long and one more. It gives a name of the sequence that is free, is not empty, and
before which none is free. No fragment is used twice. -/
theorem deriveName_first_free {m : Type → Type} [Monad m] [LawfulMonad m] {isFree : Ident → Bool}
    {taken : List Ident} (htaken : ∀ x, isFree x = false → x ∈ taken) (stem : String) (ms : List Member) :
    (fragments ms).Nodup ∧ ∃ n ≥ firstPlace stem (fragments ms), nameAt stem (fragments ms) n ≠ "" ∧
      isFree (nameAt stem (fragments ms) n) = true ∧
      (∀ k < n, firstPlace stem (fragments ms) ≤ k → isFree (nameAt stem (fragments ms) k) = false) ∧
      ∀ limit > taken.length, deriveName (fun x => (pure (isFree x) : m Bool)) limit stem ms =
        pure (some (nameAt stem (fragments ms) n)) := by
  obtain ⟨n, hfirst, hn, hbefore, hfind⟩ := exists_first_free htaken stem (fragments ms)
  refine ⟨nodup_distinct _, n, hfirst, nameAt_ne_empty (empty_not_mem_fragments ms) hfirst, hn, hbefore,
    fun limit hlimit => ?_⟩
  rw [deriveName_eq_find?, List.find?_map, hfind limit hlimit, Option.map_some]

/-- The members of `{a; "b"; a}`, with two fragments. -/
def twiceNamed : List Member := [.ofType "a" .any, .ofType "\"b\"" .any, .ofType "a" .any]

/-- The names with one and two fragments are taken, and so is the first number. -/
def crowded : List Ident := ["AnonA", "AnonAb", "AnonAb1"]

theorem deriveName_first_free_numbered :
    (∀ x, (!crowded.contains x) = false → x ∈ crowded) ∧
    ∀ limit > 3, deriveName (fun x => (pure (!crowded.contains x) : Id Bool)) limit "Anon" twiceNamed =
      pure (some "AnonAb2") := by
  have htaken : ∀ x, (!crowded.contains x) = false → x ∈ crowded := fun x h => by simpa using h
  refine ⟨htaken, fun limit hlimit => ?_⟩
  obtain ⟨-, n, hfirst, -, hfree, hbefore, hfind⟩ := deriveName_first_free (m := Id) htaken "Anon" twiceNamed
  have htried : ∀ k < 4, firstPlace "Anon" (fragments twiceNamed) ≤ k →
      nameAt "Anon" (fragments twiceNamed) k ∈ crowded := by decide +kernel
  have hn : n = 4 := by
    refine Nat.le_antisymm (Nat.le_of_not_lt fun hlt => ?_) (Nat.le_of_not_lt fun hlt => ?_)
    · exact absurd (hbefore 4 hlt (by decide +kernel)) (by decide +kernel)
    · simp [htried n hlt hfirst] at hfree
  have hname : nameAt "Anon" (fragments twiceNamed) 4 = "AnonAb2" := by decide +kernel
  rw [hfind limit hlimit, hn, hname]

end Ambient
