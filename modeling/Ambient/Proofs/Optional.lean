import Ambient.Proofs.Binding
import Ambient.Proofs.Leaves

/-!
# Optional types

Making a type optional and taking the option off again leaves the type in simplest form, without any
`undefined` that was in it already. Nothing but `undefined` stays if there was nothing else.

* `makeOptional_eq`: the members of an optional type.
* `extractOptional?_makeOptional`: what is left of them.
-/

namespace Ambient

/-- The members that an optional type has besides `undefined`. -/
def Ty.definedLeaves (t : Ty) : List Ty := t.unionLeaves.filter fun u => !u.isUndefined

theorem Ty.undefined_beq (t : Ty) : (Ty.undefined == t) = t.isUndefined := Ty.named_beq "undefined" t

theorem Ty.isUndefined_congr {t u : Ty} (h : (t == u) = true) : t.isUndefined = u.isUndefined := by
  rw [← Ty.undefined_beq, ← Ty.undefined_beq, BEq.congr_right h]

section
variable (t : Ty)

/-- The members of `t | undefined`, each once. -/
def Ty.optionalLeaves : List Ty := distinct (t.unionLeaves ++ [.undefined])

theorem makeOptional_eq : makeOptional t = .joinDistinct t.optionalLeaves := by
  simp only [makeOptional, simplifyUnion, Ty.optionalLeaves, Ty.unionLeavesList, List.append_nil]
  rfl

theorem Ty.optionalLeaves_flat (i : NodeId) (us : List Ty) : .union i us ∉ t.optionalLeaves := by
  intro h
  have hmem := (distinct_sublist _).subset h
  have hlvs : t.unionLeaves ++ [.undefined] = Ty.unionLeavesList [t, .undefined] := by
    simp only [Ty.unionLeavesList, List.append_nil]
    rfl
  exact Ty.union_notMem_unionLeavesList [t, .undefined] i us (hlvs ▸ hmem)

theorem Ty.any_undefined_optionalLeaves : t.optionalLeaves.any Ty.isUndefined = true := by
  have hany := any_distinct (t.unionLeaves ++ [.undefined]) .undefined
  have hself : (t.unionLeaves ++ [Ty.undefined]).any (· == .undefined) = true := by simp
  obtain ⟨u, hu, hundef⟩ := List.any_eq_true.1 (hany.trans hself)
  exact List.any_eq_true.2 ⟨u, hu, (Ty.isUndefined_congr hundef).trans rfl⟩

theorem Ty.filter_optionalLeaves :
    (t.optionalLeaves.filter fun u => !u.isUndefined) = distinct t.definedLeaves := by
  rw [optionalLeaves, ← distinct_filter fun h => congrArg (!·) (Ty.isUndefined_congr h), List.filter_append]
  have hnone : ([Ty.undefined].filter fun u => !u.isUndefined) = [] := rfl
  rw [hnone, List.append_nil, definedLeaves]

theorem Ty.optionalLeaves_cases :
    (∃ u, t.optionalLeaves = [u] ∧ u.isUndefined = true ∧ t.definedLeaves = []) ∨
      t.definedLeaves ≠ [] ∧ ∃ u v us, t.optionalLeaves = u :: v :: us := by
  have hundef := t.any_undefined_optionalLeaves
  have hrest := t.filter_optionalLeaves
  have hdist := distinct_pairwise (t.unionLeaves ++ [.undefined])
  rw [← optionalLeaves] at hdist
  rcases hl : t.optionalLeaves with _ | ⟨u, _ | ⟨v, us⟩⟩ <;> rw [hl] at hundef hrest hdist
  · cases hundef
  · have hu : u.isUndefined = true := by simpa using hundef
    refine .inl ⟨u, rfl, hu, ?_⟩
    cases hlvs : t.definedLeaves with
    | nil => rfl
    | cons d ds => simp [hlvs, distinct, hu] at hrest
  · refine .inr ⟨fun hnone => ?_, u, v, us, rfl⟩
    rw [hnone, distinct, List.filter_eq_nil_iff] at hrest
    have hu : u.isUndefined = true := by simpa using hrest u (.head _)
    have hv : v.isUndefined = true := by simpa using hrest v (.tail _ (.head _))
    -- both equal `undefined`, so they equal each other
    rw [← Ty.undefined_beq] at hu hv
    have huv : (u == v) = true := PartialEquivBEq.trans (PartialEquivBEq.symm hu) hv
    rw [List.rel_of_pairwise_cons hdist (.head _)] at huv
    cases huv

theorem extractOptional?_makeOptional (h : t.definedLeaves ≠ []) :
    extractOptional? (makeOptional t) = some (simplifyUnion t.definedLeaves) := by
  obtain ⟨_, _, _, hnone⟩ | ⟨-, u, v, us, hl⟩ := t.optionalLeaves_cases
  · exact absurd hnone h
  have hflat : ∀ i ts, .union i ts ∉ t.optionalLeaves.filter fun u => !u.isUndefined :=
    fun i ts hmem => t.optionalLeaves_flat i ts (List.mem_filter.1 hmem).1
  have hdefd : Ty.unionLeavesList t.definedLeaves = t.definedLeaves :=
    Ty.unionLeavesList_eq_self fun i ts hmem => Ty.union_notMem_unionLeavesList [t] i ts
      (by simpa [Ty.unionLeavesList] using (List.mem_filter.1 hmem).1)
  have hunion : makeOptional t = .ofUnion t.optionalLeaves := by rw [makeOptional_eq, hl]; rfl
  have hany : t.optionalLeaves.any Ty.isUndefined = true := t.any_undefined_optionalLeaves
  rw [hunion, Ty.ofUnion, extractOptional?, if_pos hany, simplifyUnion, Ty.unionLeavesList_eq_self hflat,
    t.filter_optionalLeaves, distinct_eq_self (distinct_pairwise _), simplifyUnion, hdefd]

theorem extractOptional?_makeOptional_undefined (h : t.definedLeaves = []) :
    extractOptional? (makeOptional t) = some (makeOptional t) ∧ (makeOptional t).isUndefined = true := by
  obtain ⟨u, hl, hu, -⟩ | ⟨hsome, -⟩ := t.optionalLeaves_cases
  · have hmake : makeOptional t = u := by rw [makeOptional_eq, hl]; rfl
    rw [hmake]
    refine ⟨?_, hu⟩
    cases u with
    | union => cases hu
    | _ => exact if_pos hu
  · exact absurd h hsome

theorem makeOptional_makeOptional : makeOptional (makeOptional t) = makeOptional t := by
  have hlvs : (makeOptional t).unionLeaves = t.optionalLeaves := by
    have hne : Ty.unionLeavesList [t, .undefined] ≠ [] := by simp [Ty.unionLeavesList, Ty.unionLeaves,
      Ty.undefined, Ty.reference]
    rw [makeOptional, Ty.unionLeaves_simplifyUnion hne, Ty.optionalLeaves]
    simp only [Ty.unionLeavesList, List.append_nil]
    rfl
  have hagain : distinct (distinct (t.unionLeaves ++ [.undefined]) ++ [.undefined]) =
      distinct (t.unionLeaves ++ [.undefined]) := by
    have h := distinct_append_distinct [] (t.unionLeaves ++ [.undefined]) [.undefined]
    rw [List.nil_append, List.nil_append] at h
    rw [h, distinct_append]
    simp [distinct]
  rw [makeOptional_eq, Ty.optionalLeaves, hlvs, Ty.optionalLeaves, hagain, ← Ty.optionalLeaves,
    ← makeOptional_eq]

end

/-- **Optional types round trip.** For the leaves of a type, unions opened to any depth, without `undefined`:
making the type optional and taking the option off again gives their union in simplest form, or `undefined`
if there are none. So a type that is no union comes back as it is. And making a type optional twice is the
same as once. -/
theorem optional_round_trip (t : Ty) :
    (∃ leaves, (∀ ls, Unnested Ty.unionParts? [t] ls ↔ ls = leaves) ∧
      ((leaves.filter fun u => !u.isUndefined) ≠ [] → extractOptional? (makeOptional t) =
        some (simplifyUnion (leaves.filter fun u => !u.isUndefined))) ∧
      ((leaves.filter fun u => !u.isUndefined) = [] →
        ∃ u, extractOptional? (makeOptional t) = some u ∧ (u == .undefined) = true)) ∧
    (t.unionParts? = none → extractOptional? (makeOptional t) = some t) ∧
    makeOptional (makeOptional t) = makeOptional t := by
  have hundefined : t.definedLeaves = [] →
      ∃ u, extractOptional? (makeOptional t) = some u ∧ (u == .undefined) = true := fun h =>
    have ⟨hextract, hu⟩ := extractOptional?_makeOptional_undefined t h
    ⟨_, hextract, PartialEquivBEq.symm ((Ty.undefined_beq _).trans hu)⟩
  refine ⟨⟨t.unionLeaves, fun ls => ?_, extractOptional?_makeOptional t, hundefined⟩, fun hnounion => ?_,
    makeOptional_makeOptional t⟩
  · rw [unnested_unionLeavesList, Ty.unionLeavesList, Ty.unionLeavesList, List.append_nil]
  have hself : t.unionLeaves = [t] := by
    cases t with
    | union => cases hnounion
    | _ => rfl
  cases ht : t.isUndefined with
  | true =>
    have hnone : t.definedLeaves = [] := by simp [Ty.definedLeaves, hself, ht]
    rw [(extractOptional?_makeOptional_undefined t hnone).1, makeOptional_eq, Ty.optionalLeaves, hself]
    rw [← Ty.undefined_beq, BEq.comm] at ht
    simp [distinct, ht, Ty.joinDistinct]
  | false =>
    have hone : t.definedLeaves = [t] := by simp [Ty.definedLeaves, hself, ht]
    rw [extractOptional?_makeOptional t (hone ▸ List.cons_ne_nil _ _), hone]
    simp [simplifyUnion, Ty.unionLeavesList, hself, distinct, Ty.joinDistinct]

/-- `number | (undefined | string)` gives back `number | string`, `undefined | undefined` gives `undefined`. -/
theorem optional_round_trip_nested :
    extractOptional? (makeOptional (.union 1 [.number, .union 2 [.undefined, .string]])) =
      some (simplifyUnion [.number, .string]) ∧
    (∃ u, extractOptional? (makeOptional (.union 1 [.undefined, .undefined])) = some u ∧
      (u == .undefined) = true) ∧
    Ty.number.unionParts? = none ∧ extractOptional? (makeOptional .number) = some .number := by
  refine ⟨?_, ?_, rfl, (optional_round_trip .number).2.1 rfl⟩
  · obtain ⟨leaves, hleaves, hdefined, -⟩ :=
      (optional_round_trip (.union 1 [.number, .union 2 [.undefined, .string]])).1
    obtain rfl := (hleaves [.number, .undefined, .string]).1 (unnested_unionLeavesList.2 rfl)
    exact hdefined (List.cons_ne_nil _ _)
  · obtain ⟨leaves, hleaves, -, hundefined⟩ := (optional_round_trip (.union 1 [.undefined, .undefined])).1
    obtain rfl := (hleaves [.undefined, .undefined]).1 (unnested_unionLeavesList.2 rfl)
    exact hundefined rfl

end Ambient
