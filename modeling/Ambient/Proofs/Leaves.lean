import Ambient.Algebra.Intersection
import Ambient.Proofs.Simplest
import Ambient.Proofs.Twin.Equal

/-!
# Leaves without repetition

Unions and intersections are brought to simplest form from their leaves: nested ones are opened to any
depth, and of leaves that say the same the first is kept.

* `Unnested` says what the leaves are, whatever it is that is opened. `unnested_unionLeavesList` and
  `unnested_intersectLeavesList`: both ways of collecting leaves give these and no others.
* `firsts` keeps an element if no element before it is equal. `distinct` does the same
  (`distinct_eq_firsts`), since equality of types is an equivalence.
* `distinct_append_distinct`: what is repeated inside a part of the list can go first.
* `simplifyUnion_of_leaves`: what a union becomes, and that nesting does not matter.
-/

namespace Ambient

/-! ## Keeping the first of equals -/

/-- The elements that no element before them equals. -/
def firsts {α : Type} [BEq α] (as : List α) : List α :=
  (as.zipIdx.filter fun e => !(as.take e.2).any (· == e.1)).map (·.1)

section
variable {α : Type} [BEq α]

theorem distinct_append (as bs : List α) :
    distinct (as ++ bs) = distinct as ++ (distinct bs).filter fun b => !as.any (· == b) := by
  induction as with
  | nil => simp [distinct]
  | cons a as ih =>
    rw [List.cons_append, distinct, ih, List.filter_append, List.filter_filter, distinct,
      List.cons_append]
    simp only [List.any_cons, Bool.not_or]

theorem firsts_concat (as : List α) (a : α) :
    firsts (as ++ [a]) = firsts as ++ if as.any (· == a) then [] else [a] := by
  have hbef : (as.zipIdx.filter fun e => !((as ++ [a]).take e.2).any (· == e.1)) =
      as.zipIdx.filter fun e => !(as.take e.2).any (· == e.1) := by
    refine List.filter_congr fun e he => ?_
    rw [List.take_append_of_le_length (Nat.le_of_lt (by simpa using List.snd_lt_of_mem_zipIdx he))]
  rw [firsts, List.zipIdx_append, List.filter_append, List.map_append, hbef, firsts]
  cases h : as.any (· == a) <;> simp [h]

theorem distinct_eq_firsts (as : List α) : distinct as = firsts as := by
  induction as using List.reverseRecOn with
  | nil => rfl
  | append_singleton as a ih =>
    rw [distinct_append, firsts_concat, ih]
    cases h : as.any (· == a) <;> simp [distinct, h]

theorem distinct_filter {p : α → Bool} (hp : ∀ {a b : α}, (a == b) = true → p a = p b)
    (as : List α) : distinct (as.filter p) = (distinct as).filter p := by
  induction as with
  | nil => rfl
  | cons a as ih =>
    cases ha : p a with
    | true =>
      rw [List.filter_cons_of_pos ha, distinct, distinct, List.filter_cons_of_pos ha, ih,
        List.filter_filter, List.filter_filter]
      simp only [Bool.and_comm]
    | false =>
      rw [List.filter_cons_of_neg (by simp [ha]), distinct, List.filter_cons_of_neg (by simp [ha]), ih,
        List.filter_filter]
      -- What equals `a` is not asked for either.
      refine List.filter_congr fun b _ => ?_
      cases hb : p b with
      | false => rfl
      | true =>
        have hne : (a == b) = false := Bool.eq_false_iff.2 fun hab => by simp [hp hab, hb] at ha
        simp [hne]

variable [EquivBEq α]

theorem any_distinct (as : List α) (b : α) : (distinct as).any (· == b) = as.any (· == b) := by
  induction as with
  | nil => rfl
  | cons a as ih =>
    rw [distinct, List.any_cons, List.any_cons, ← ih]
    cases hab : a == b with
    | true => rfl
    | false =>
      simp only [Bool.false_or, List.any_filter]
      refine List.any_congr rfl fun c => ?_
      cases hcb : c == b with
      | false => simp
      | true => simp [BEq.congr_right (a := a) hcb, hab]

theorem distinct_append_distinct (as bs cs : List α) :
    distinct (as ++ distinct bs ++ cs) = distinct (as ++ bs ++ cs) := by
  simp only [distinct_append, distinct_eq_self (distinct_pairwise bs), List.any_append, any_distinct]

end

/-! ## Leaves -/

/-- Opened from left to right and to any depth, the types give these leaves. What a type is opened to
is up to `parts`; it is a leaf if there is nothing to open. -/
inductive Unnested (parts : Ty → Option (List Ty)) : List Ty → List Ty → Prop
  | nil : Unnested parts [] []
  | leaf {t : Ty} {ts leaves : List Ty} (ht : parts t = none) (hts : Unnested parts ts leaves) :
    Unnested parts (t :: ts) (t :: leaves)
  | opened {t : Ty} {us ts inner leaves : List Ty} (ht : parts t = some us)
    (hus : Unnested parts us inner) (hts : Unnested parts ts leaves) :
    Unnested parts (t :: ts) (inner ++ leaves)

def Ty.unionParts? : Ty → Option (List Ty)
  | .union _ ts => some ts
  | _ => none

def Ty.intersectParts? : Ty → Option (List Ty)
  | .intersect _ ts => some ts
  | _ => none

variable {ts ls : List Ty}

/-- A list function that opens what `parts` opens, and only that, gives the leaves. -/
theorem unnested_iff_of_eqns {parts : Ty → Option (List Ty)} {leaves : List Ty → List Ty}
    (hnil : leaves [] = []) (hleaf : ∀ {t} ts, parts t = none → leaves (t :: ts) = t :: leaves ts)
    (hopnd : ∀ {t us} ts, parts t = some us →
      leaves (t :: ts) = leaves us ++ leaves ts ∧ sizeOf us < sizeOf t) :
    Unnested parts ts ls ↔ ls = leaves ts := by
  constructor
  · intro h
    induction h with
    | nil => exact hnil.symm
    | leaf ht _ ih => rw [hleaf _ ht, ih]
    | opened ht _ _ ihus ihts => rw [(hopnd _ ht).1, ihus, ihts]
  · rintro rfl
    -- The members of what is opened are smaller than it.
    induction hn : sizeOf ts using Nat.strongRecOn generalizing ts with
    | ind n ih =>
      subst hn
      cases ts with
      | nil => exact hnil.symm ▸ .nil
      | cons t ts =>
        have hts := ih (sizeOf ts) (by simp only [List.cons.sizeOf_spec]; omega) rfl
        cases ht : parts t with
        | none => exact hleaf ts ht ▸ .leaf ht hts
        | some us =>
          obtain ⟨heq, hlt⟩ := hopnd ts ht
          have hus := ih (sizeOf us) (by simp only [List.cons.sizeOf_spec]; omega) rfl
          exact heq ▸ .opened ht hus hts

theorem unnested_unionLeavesList : Unnested Ty.unionParts? ts ls ↔ ls = Ty.unionLeavesList ts := by
  refine unnested_iff_of_eqns rfl (fun {t} ts ht => ?_) fun {t us} ts ht => ?_
  · cases t with
    | union i us => cases ht
    | _ => rfl
  · cases t with
    | union i vs =>
      cases ht
      exact ⟨rfl, by simp only [Ty.union.sizeOf_spec]; omega⟩
    | _ => cases ht

theorem unnested_intersectLeavesList :
    Unnested Ty.intersectParts? ts ls ↔ ls = Ty.intersectLeavesList ts := by
  refine unnested_iff_of_eqns rfl (fun {t} ts ht => ?_) fun {t us} ts ht => ?_
  · cases t with
    | intersect i us => cases ht
    | _ => rfl
  · cases t with
    | intersect i vs =>
      cases ht
      exact ⟨rfl, by simp only [Ty.intersect.sizeOf_spec]; omega⟩
    | _ => cases ht

theorem Unnested.leaves {parts : Ty → Option (List Ty)} (h : Unnested parts ts ls) :
    ∀ l ∈ ls, parts l = none := by
  induction h with
  | nil => exact List.forall_mem_nil _
  | leaf ht _ ih => exact List.forall_mem_cons.2 ⟨ht, ih⟩
  | opened _ _ _ ihus ihts => exact List.forall_mem_append.2 ⟨ihus, ihts⟩

theorem Ty.unionLeavesList_append (ts us : List Ty) :
    Ty.unionLeavesList (ts ++ us) = Ty.unionLeavesList ts ++ Ty.unionLeavesList us := by
  induction ts with
  | nil => rfl
  | cons t ts ih => rw [List.cons_append, Ty.unionLeavesList, ih, Ty.unionLeavesList, List.append_assoc]

theorem Ty.union_notMem_unionLeavesList (ts : List Ty) (i : NodeId) (us : List Ty) :
    .union i us ∉ Ty.unionLeavesList ts := by
  intro h
  have := (unnested_unionLeavesList.2 rfl).leaves _ h
  cases this

/-! ## Unions -/

/-- Opened again, a union in simplest form gives its leaves without repetition. -/
theorem Ty.unionLeaves_simplifyUnion (h : Ty.unionLeavesList ts ≠ []) :
    (simplifyUnion ts).unionLeaves = distinct (Ty.unionLeavesList ts) := by
  have hflat : ∀ i us, .union i us ∉ distinct (Ty.unionLeavesList ts) := fun i us hus =>
    Ty.union_notMem_unionLeavesList ts i us ((distinct_sublist _).subset hus)
  have hne : distinct (Ty.unionLeavesList ts) ≠ [] := by
    cases hl : Ty.unionLeavesList ts with
    | nil => exact absurd hl h
    | cons l ls => exact List.cons_ne_nil _ _
  rw [simplifyUnion]
  generalize distinct (Ty.unionLeavesList ts) = leaves at hflat hne
  rcases leaves with _ | ⟨t, _ | ⟨u, us⟩⟩
  · exact absurd rfl hne
  · simpa [Ty.unionLeavesList, Ty.joinDistinct] using Ty.unionLeavesList_eq_self hflat
  · exact Ty.unionLeavesList_eq_self hflat

theorem simplifyUnion_nested {us : List Ty} (h : Ty.unionLeavesList us ≠ []) (ts vs : List Ty)
    (i : NodeId) :
    simplifyUnion (ts ++ [.union i us] ++ vs) = simplifyUnion (ts ++ [simplifyUnion us] ++ vs) := by
  have hone : ∀ t : Ty, Ty.unionLeavesList (ts ++ [t] ++ vs) =
      Ty.unionLeavesList ts ++ t.unionLeaves ++ Ty.unionLeavesList vs := by
    simp [Ty.unionLeavesList_append, Ty.unionLeavesList]
  have hlvs : distinct (Ty.unionLeavesList (ts ++ [simplifyUnion us] ++ vs)) =
      distinct (Ty.unionLeavesList (ts ++ [.union i us] ++ vs)) := by
    rw [hone, hone, Ty.unionLeaves_simplifyUnion h, distinct_append_distinct, Ty.unionLeaves]
  rw [simplifyUnion, ← hlvs, ← simplifyUnion]

/-- What a union becomes: the first of each group of leaves that say the same, in order, if there are
several; the only one, if there is one; `never`, if there is none. How the members are grouped does
not matter. -/
theorem simplifyUnion_of_leaves (ts : List Ty) :
    (∃ leaves, (∀ ls, Unnested Ty.unionParts? ts ls ↔ ls = leaves) ∧
      (firsts leaves = [] → simplifyUnion ts = .never) ∧
      (∀ t, firsts leaves = [t] → simplifyUnion ts = t) ∧
      (2 ≤ (firsts leaves).length → simplifyUnion ts = .ofUnion (firsts leaves))) ∧
    ∀ (us vs : List Ty) (i : NodeId), (∃ l ls, Unnested Ty.unionParts? us (l :: ls)) →
      simplifyUnion (ts ++ [.union i us] ++ vs) = simplifyUnion (ts ++ [simplifyUnion us] ++ vs) := by
  refine ⟨⟨Ty.unionLeavesList ts, fun _ => unnested_unionLeavesList, ?_⟩, fun us vs i hus => ?_⟩
  · rw [simplifyUnion, ← distinct_eq_firsts]
    generalize distinct (Ty.unionLeavesList ts) = leaves
    refine ⟨fun h => by rw [h]; rfl, fun t h => by rw [h]; rfl, fun h => ?_⟩
    rcases leaves with _ | ⟨t, _ | ⟨u, us⟩⟩
    · simp at h
    · simp at h
    · rfl
  · obtain ⟨l, ls, hls⟩ := hus
    exact simplifyUnion_nested (unnested_unionLeavesList.1 hls ▸ List.cons_ne_nil l ls) ts vs i

/-- `number | (string | (number))` loses its repetition, and in `number | (string | number) | string`
it does not matter whether the inner union is simplified first. -/
theorem simplifyUnion_of_leaves_nested :
    Unnested Ty.unionParts? [.number, .union 1 [.string, .union 2 [.number]]]
      [.number, .string, .number] ∧
    2 ≤ (firsts [Ty.number, .string, .number]).length ∧
    simplifyUnion [.number, .union 1 [.string, .union 2 [.number]]] = .ofUnion [.number, .string] ∧
    (∃ l ls, Unnested Ty.unionParts? [.string, .number] (l :: ls)) ∧
    simplifyUnion ([.number] ++ [.union 3 [.string, .number]] ++ [.string]) =
      simplifyUnion ([.number] ++ [simplifyUnion [.string, .number]] ++ [.string]) := by
  have hun : Unnested Ty.unionParts? [.number, .union 1 [.string, .union 2 [.number]]]
      [.number, .string, .number] := unnested_unionLeavesList.2 rfl
  have hinner : Unnested Ty.unionParts? [.string, .number] [.string, .number] :=
    unnested_unionLeavesList.2 rfl
  have hfirsts : firsts [Ty.number, .string, .number] = [.number, .string] := by
    have hne : (Ty.number == Ty.string) = false := by decide +kernel
    rw [← distinct_eq_firsts]
    simp [distinct, hne]
  refine ⟨hun, by rw [hfirsts]; decide, ?_, ⟨_, _, hinner⟩,
    (simplifyUnion_of_leaves [.number]).2 _ _ _ ⟨_, _, hinner⟩⟩
  obtain ⟨leaves, hleaves, -, -, hmany⟩ :=
    (simplifyUnion_of_leaves [.number, .union 1 [.string, .union 2 [.number]]]).1
  have hls := (hleaves _).1 hun
  rw [← hls, hfirsts] at hmany
  exact hmany (by decide)

end Ambient
