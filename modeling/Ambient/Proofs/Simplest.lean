import Ambient.Proofs.Normal
import Mathlib.Data.List.Permutation

/-!
# Simplest form

A node is in simplest form if every union and every intersection in it is (`Node.Simplest`). Bringing
a union to simplest form needs its members to be in simplest form already, which the walk sees to: it
goes from the bottom up. So what the step gives is in simplest form everywhere, and there it finds
nothing to do (`simplifyTypes_simplest`).

A union that the step keeps, since it equals its simplest form, is in simplest form itself: it is flat,
because its simplest form is, and then nothing can have been removed from it.
-/

namespace Ambient

/-! ## Nodes in simplest form -/

/-- A union or intersection is in simplest form; any other node is, apart from its parts. -/
def Node.SimplestHead : Node → Prop
  | .ty (.union _ ts) => SimplestUnion ts
  | .ty (.intersect _ ts) => SimplestIntersection ts
  | _ => True

/-- The node and all nodes inside it are in simplest form. -/
inductive Node.Simplest : Node → Prop
  | mk {n : Node} (head : n.SimplestHead) (parts : ∀ m ∈ n.children, m.Simplest) : n.Simplest

abbrev Ty.Simplest (t : Ty) : Prop := (Node.ty t).Simplest

theorem Node.Simplest.head {n : Node} (h : n.Simplest) : n.SimplestHead := by
  cases h with
  | mk head _ => exact head

theorem Node.Simplest.parts {n : Node} (h : n.Simplest) : ∀ m ∈ n.children, m.Simplest := by
  cases h with
  | mk _ parts => exact parts

variable {ms : List Member} {origin : Nat} {e : Nat × Member} {n : Node} {u t : Ty} {α : Type}

theorem File.Contains.simplest {f : File} (h : f.Contains n) (hf : (Node.file f).Simplest) : n.Simplest := by
  induction h with
  | file => exact hf
  | child _ hm ih => exact ih.parts _ hm

/-! ## Lists without repetition -/

theorem distinct_sublist [BEq α] (as : List α) : (distinct as).Sublist as := by
  induction as with
  | nil => exact .slnil
  | cons a as ih => exact (List.filter_sublist.trans ih).cons_cons a

theorem distinct_pairwise [BEq α] (as : List α) :
    (distinct as).Pairwise fun a b => (a == b) = false := by
  induction as with
  | nil => exact .nil
  | cons a as ih =>
    refine .cons (fun b hb => ?_) (ih.sublist List.filter_sublist)
    simpa using (List.mem_filter.1 hb).2

theorem distinct_eq_of_length [BEq α] {as : List α} (h : as.length ≤ (distinct as).length) :
    distinct as = as :=
  (distinct_sublist as).eq_of_length_le h

/-! ## Unions -/

theorem Ty.forall₂_of_sameList {ts us : List Ty} (h : Ty.sameList ts us = true) :
    List.Forall₂ (fun t u => t.same u = true) ts us := by
  induction ts generalizing us with
  | nil =>
    cases us with
    | nil => exact .nil
    | cons u us => simp [Ty.sameList] at h
  | cons t ts ih =>
    cases us with
    | nil => simp [Ty.sameList] at h
    | cons u us =>
      simp only [Ty.sameList, Bool.and_eq_true] at h
      exact .cons h.1 (ih h.2)

theorem Ty.unionLeavesList_simplest {ts : List Ty} (hts : ∀ t ∈ ts, t.Simplest) :
    ∀ u ∈ Ty.unionLeavesList ts, u.Simplest ∧ ∀ i us, u ≠ .union i us := by
  induction ts with
  | nil => exact List.forall_mem_nil _
  | cons t ts ih =>
    intro u hu
    rw [Ty.unionLeavesList, List.mem_append] at hu
    rcases hu with hu | hu
    · have ht := hts t (.head _)
      cases t with
      | union i us =>
        have hus : SimplestUnion us := ht.head
        rw [Ty.unionLeaves, Ty.unionLeavesList_eq_self hus.flat] at hu
        refine ⟨ht.parts _ (List.mem_map_of_mem hu), fun j vs hvs => ?_⟩
        subst hvs
        exact hus.flat j vs hu
      | _ =>
        simp only [Ty.unionLeaves, List.mem_singleton] at hu
        subst hu
        exact ⟨ht, fun _ _ h => by cases h⟩
    · exact ih (fun t ht => hts t (.tail _ ht)) u hu

theorem Ty.never_simplest : Ty.never.Simplest :=
  ⟨trivial, List.forall_mem_nil _⟩

theorem simplifyUnion_simplest {ts : List Ty} (hts : ∀ t ∈ ts, t.Simplest) :
    (simplifyUnion ts).Simplest := by
  have hlvs : ∀ u ∈ distinct (Ty.unionLeavesList ts), u.Simplest ∧ ∀ i us, u ≠ .union i us :=
    fun u hu => Ty.unionLeavesList_simplest hts u ((distinct_sublist _).subset hu)
  have hdiff := distinct_pairwise (Ty.unionLeavesList ts)
  rw [simplifyUnion]
  generalize distinct (Ty.unionLeavesList ts) = leaves at hlvs hdiff ⊢
  rcases leaves with _ | ⟨t, _ | ⟨u, us⟩⟩
  · exact Ty.never_simplest
  · exact (hlvs t (.head _)).1
  · refine ⟨⟨fun i vs hvs => (hlvs _ hvs).2 i vs rfl, hdiff, by simp⟩, fun n hn => ?_⟩
    obtain ⟨v, hv, rfl⟩ := List.mem_map.1 hn
    exact (hlvs v hv).1

/-- The types have the same simplest form as a union that is flat and without repetition, so they are
such themselves. -/
theorem SimplestUnion.of_same {i : NodeId} {ts : List Ty} (hts : ∀ t ∈ ts, t.Simplest)
    (h : (simplifyUnion ts == .union i ts) = true) : SimplestUnion ts := by
  have hlvs : ∀ u ∈ distinct (Ty.unionLeavesList ts), ∀ i us, u ≠ .union i us :=
    fun u hu => (Ty.unionLeavesList_simplest hts u ((distinct_sublist _).subset hu)).2
  replace h : (simplifyUnion ts).same (.union i ts) = true := h
  obtain ⟨hsame, hlen⟩ : Ty.sameList (distinct (Ty.unionLeavesList ts)) ts = true ∧
      2 ≤ (distinct (Ty.unionLeavesList ts)).length := by
    rw [simplifyUnion] at h
    generalize distinct (Ty.unionLeavesList ts) = leaves at hlvs h ⊢
    rcases leaves with _ | ⟨t, _ | ⟨u, us⟩⟩
    · simp [Ty.joinDistinct, Ty.never, Ty.reference, Ty.same] at h
    · cases t with
      | union j us => exact absurd rfl (hlvs _ (.head _) j us)
      | _ => simp [Ty.joinDistinct, Ty.same] at h
    · simp only [Ty.joinDistinct, Ty.ofUnion, Ty.same] at h
      exact ⟨h, by simp⟩
  have hflat : ∀ i us, .union i us ∉ ts := by
    intro j us hus
    obtain ⟨u, hu, husame⟩ := exists_of_forall₂ (Ty.forall₂_of_sameList hsame).flip hus
    cases u with
    | union k vs => exact hlvs _ hu k vs rfl
    | _ => simp [Ty.same] at husame
  have hle := (Ty.forall₂_of_sameList hsame).length_eq
  rw [Ty.unionLeavesList_eq_self hflat] at hle hlen
  have hself := distinct_eq_of_length (Nat.le_of_eq hle.symm)
  exact ⟨hflat, hself ▸ distinct_pairwise ts, hle ▸ hlen⟩

/-! ## Merged objects -/

theorem Ty.plainObject?_eq_some {c : Comments} :
    t.plainObject? = some (c, ms) ↔
      ∃ i, t = .object i ms ∧ i.comments = c ∧ Member.isTypeMapping ms = false := by
  cases t with
  | object i ns =>
    simp only [Ty.plainObject?, Ty.object.injEq]
    constructor
    · intro h
      split at h
      · cases h
      · rename_i hmap
        cases h
        exact ⟨i, ⟨rfl, rfl⟩, rfl, by simpa using hmap⟩
    · rintro ⟨j, ⟨rfl, rfl⟩, rfl, hmap⟩
      simp [hmap]
  | _ => simp [Ty.plainObject?]

theorem mem_mergeMember {merged : List (Nat × Member)} {m : Member}
    (h : e ∈ mergeMember origin merged m) : e ∈ merged ∨ e.2 = m := by
  have hlast : e ∈ merged ++ [(origin, m)] → e ∈ merged ∨ e.2 = m := by
    intro h
    rcases List.mem_append.1 h with h | h
    · exact .inl h
    · rw [List.mem_singleton] at h
      exact .inr (h ▸ rfl)
  unfold mergeMember at h
  split at h
  · exact hlast h
  · split at h
    · exact hlast h
    · rcases List.mem_append.1 h with h | h
      · exact .inl (List.mem_of_mem_take h)
      · rcases List.mem_cons.1 h with rfl | h
        · exact .inr rfl
        · exact .inl (List.mem_of_mem_drop (List.mem_filter.1 h).1)

theorem mem_mergeMembers {merged : List (Nat × Member)} (h : e ∈ ms.foldl (mergeMember origin) merged) :
    e ∈ merged ∨ e.2 ∈ ms := by
  induction ms generalizing merged with
  | nil => exact .inl h
  | cons m ms ih =>
    rcases ih h with h | h
    · rcases mem_mergeMember h with h | h
      · exact .inl h
      · exact .inr (h ▸ .head _)
    · exact .inr (.tail _ h)

theorem mem_mergeObjects {objects : List (Comments × List Member)} {merged : List (Nat × Member)}
    (h : e ∈ mergeObjects origin merged objects) : e ∈ merged ∨ ∃ o ∈ objects, e.2 ∈ o.2 := by
  induction objects generalizing origin merged with
  | nil => exact .inl h
  | cons o os ih =>
    rcases ih h with h | ⟨o', ho', h⟩
    · rcases mem_mergeMembers h with h | h
      · exact .inl h
      · exact .inr ⟨o, .head _, h⟩
    · exact .inr ⟨o', .tail _ ho', h⟩

/-- A member of the merged object, with the written-out object that it comes from. -/
theorem exists_object_of_merged {ts : List Ty} {m : Member}
    (h : m ∈ (mergeObjects 0 [] (ts.filterMap Ty.plainObject?)).map (·.2)) :
    ∃ i ms, .object i ms ∈ ts ∧ m ∈ ms ∧ Member.isTypeMapping ms = false := by
  obtain ⟨e, he, rfl⟩ := List.mem_map.1 h
  rcases mem_mergeObjects he with he | ⟨⟨c, ms⟩, ho, hm⟩
  · cases he
  · obtain ⟨t, ht, hplain⟩ := List.mem_filterMap.1 ho
    obtain ⟨i, rfl, -, hmap⟩ := Ty.plainObject?_eq_some.1 hplain
    exact ⟨i, ms, ht, hm, hmap⟩

theorem mergedObject_isPlainObject (ts : List Ty) :
    (mergedObject (ts.filterMap Ty.plainObject?)).isPlainObject = true := by
  have hmap : Member.isTypeMapping
      ((mergeObjects 0 [] (ts.filterMap Ty.plainObject?)).map (·.2)) = false := by
    rw [Member.isTypeMapping, List.any_eq_false]
    intro m hm
    obtain ⟨i, ms, -, hms, hmap⟩ := exists_object_of_merged hm
    rw [Member.isTypeMapping, List.any_eq_false] at hmap
    exact hmap m hms
  simp [mergedObject, Ty.isPlainObject, Ty.plainObject?, hmap]

theorem mergedObject_simplest {ts : List Ty} (hts : ∀ t ∈ ts, t.Simplest) :
    (mergedObject (ts.filterMap Ty.plainObject?)).Simplest := by
  refine ⟨trivial, fun n hn => ?_⟩
  obtain ⟨m, hm, rfl⟩ := List.mem_map.1 hn
  obtain ⟨i, ms, ht, hms, -⟩ := exists_object_of_merged hm
  exact (hts _ ht).parts _ (List.mem_map_of_mem hms)

theorem Member.isTypeMapping_of_same {ns : List Member} (h : Member.sameList ms ns = true) :
    Member.isTypeMapping ms = Member.isTypeMapping ns := by
  induction ms generalizing ns with
  | nil =>
    cases ns with
    | nil => rfl
    | cons n ns => simp [Member.sameList] at h
  | cons m ms ih =>
    cases ns with
    | nil => simp [Member.sameList] at h
    | cons n ns =>
      simp only [Member.sameList, Bool.and_eq_true] at h
      have hm : m.isMapped = n.isMapped := by
        cases m <;> cases n <;> first | rfl | simp [Member.same] at h
      have ih := ih h.2
      simp only [Member.isTypeMapping, List.any_cons, hm] at ih ⊢
      rw [ih]

theorem Ty.isPlainObject_of_same (h : t.same u = true) : t.isPlainObject = u.isPlainObject := by
  cases t <;> cases u <;> first | rfl | simp [Ty.same] at h
  rename_i i ms j ns
  simp only [Ty.isPlainObject, Ty.plainObject?, Member.isTypeMapping_of_same h]
  split <;> rfl

section
variable {merged : Ty} {ts : List Ty}

theorem mem_replaceObjects (h : u ∈ replaceObjects merged ts) :
    u = merged ∨ u ∈ ts ∧ u.isPlainObject = false := by
  induction ts with
  | nil => cases h
  | cons t ts ih =>
    rw [replaceObjects] at h
    split at h
    · rcases List.mem_cons.1 h with h | h
      · exact .inl h
      · obtain ⟨hu, hplain⟩ := List.mem_filter.1 h
        exact .inr ⟨.tail _ hu, by simpa using hplain⟩
    · rename_i hplain
      rcases List.mem_cons.1 h with rfl | h
      · exact .inr ⟨.head _, by simpa using hplain⟩
      · exact (ih h).imp_right fun ⟨hu, hplain⟩ => ⟨.tail _ hu, hplain⟩

/-- The merged object is written out and the others are not, so it differs from them. -/
theorem replaceObjects_pairwise (hmrg : merged.isPlainObject = true)
    (h : ts.Pairwise fun t u => (t == u) = false) :
    (replaceObjects merged ts).Pairwise fun t u => (t == u) = false := by
  have hne : ∀ u : Ty, u.isPlainObject = false → (merged == u) = false ∧ (u == merged) = false := by
    intro u hu
    constructor
    all_goals
      refine Bool.eq_false_iff.2 fun hsame => ?_
      have := Ty.isPlainObject_of_same hsame
      simp_all
  induction ts with
  | nil => exact .nil
  | cons t ts ih =>
    obtain ⟨ht, hts⟩ := List.pairwise_cons.1 h
    rw [replaceObjects]
    split
    · refine .cons (fun u hu => ?_) (hts.sublist List.filter_sublist)
      exact (hne u (by simpa using (List.mem_filter.1 hu).2)).1
    · rename_i hplain
      refine .cons (fun u hu => ?_) (ih hts)
      rcases mem_replaceObjects hu with rfl | ⟨hu, -⟩
      · exact (hne t (by simpa using hplain)).2
      · exact ht u hu

theorem filterMap_plainObject?_filter (ts : List Ty) :
    (ts.filter fun u => !u.isPlainObject).filterMap Ty.plainObject? = [] := by
  rw [List.filterMap_eq_nil_iff]
  intro t ht
  simpa [Ty.isPlainObject] using (List.mem_filter.1 ht).2

theorem replaceObjects_objects : ((replaceObjects merged ts).filterMap Ty.plainObject?).length ≤ 1 := by
  induction ts with
  | nil => simp [replaceObjects]
  | cons t ts ih =>
    rw [replaceObjects]
    split
    · rw [List.filterMap_cons]
      split <;> simp [filterMap_plainObject?_filter]
    · rename_i hplain
      rw [List.filterMap_cons_none (by simpa [Ty.isPlainObject] using hplain)]
      exact ih

theorem length_replaceObjects (merged : Ty) (h : 1 ≤ (ts.filterMap Ty.plainObject?).length) :
    (replaceObjects merged ts).length + (ts.filterMap Ty.plainObject?).length = ts.length + 1 := by
  have hcount : ∀ us : List Ty, (us.filter fun u => !u.isPlainObject).length +
      (us.filterMap Ty.plainObject?).length = us.length := by
    intro us
    induction us with
    | nil => rfl
    | cons u us ih =>
      cases hu : u.plainObject? with
      | none =>
        rw [List.filterMap_cons_none hu, List.filter_cons_of_pos (by simp [Ty.isPlainObject, hu])]
        simp only [List.length_cons]
        omega
      | some o =>
        rw [List.filterMap_cons_some hu, List.filter_cons_of_neg (by simp [Ty.isPlainObject, hu])]
        simp only [List.length_cons]
        omega
  induction ts with
  | nil => simp at h
  | cons t ts ih =>
    cases ht : t.plainObject? with
    | none =>
      rw [List.filterMap_cons_none ht] at h ⊢
      have ih := ih h
      simp only [replaceObjects, Ty.isPlainObject, ht, Option.isSome_none, Bool.false_eq_true,
        if_false, List.length_cons]
      omega
    | some o =>
      have hts := hcount ts
      rw [List.filterMap_cons_some ht]
      simp only [replaceObjects, Ty.isPlainObject, ht, Option.isSome_some, if_true,
        List.length_cons] at hts ⊢
      omega

theorem mergePlainObjects_eq (h : ¬ (ts.filterMap Ty.plainObject?).length ≤ 1) :
    mergePlainObjects ts = replaceObjects (mergedObject (ts.filterMap Ty.plainObject?)) ts := by
  unfold mergePlainObjects
  split
  · rename_i hnil
    simp [hnil] at h
  · rename_i hone
    simp [hone] at h
  · rfl

/-- Merging keeps what an intersection in simplest form needs, and sees to its objects. -/
theorem mergePlainObjects_simplest (hts : ∀ t ∈ ts, t.Simplest) (hflat : ∀ i us, .intersect i us ∉ ts)
    (hdiff : ts.Pairwise fun t u => (t == u) = false) :
    (∀ t ∈ mergePlainObjects ts, t.Simplest) ∧ (∀ i us, .intersect i us ∉ mergePlainObjects ts) ∧
      ((mergePlainObjects ts).Pairwise fun t u => (t == u) = false) ∧
      ((mergePlainObjects ts).filterMap Ty.plainObject?).length ≤ 1 := by
  by_cases h : (ts.filterMap Ty.plainObject?).length ≤ 1
  · rw [mergePlainObjects_eq_self h]
    exact ⟨hts, hflat, hdiff, h⟩
  · rw [mergePlainObjects_eq h]
    refine ⟨fun t ht => ?_, fun i us hus => ?_,
      replaceObjects_pairwise (mergedObject_isPlainObject ts) hdiff, replaceObjects_objects⟩
    · rcases mem_replaceObjects ht with rfl | ⟨ht, -⟩
      · exact mergedObject_simplest hts
      · exact hts t ht
    · rcases mem_replaceObjects hus with hus | ⟨hus, -⟩
      · cases hus
      · exact hflat i us hus

theorem length_mergePlainObjects_lt (h : ¬ (ts.filterMap Ty.plainObject?).length ≤ 1) :
    (mergePlainObjects ts).length < ts.length := by
  have hone : 1 ≤ (ts.filterMap Ty.plainObject?).length := by omega
  have hlen := length_replaceObjects (mergedObject (ts.filterMap Ty.plainObject?)) hone
  rw [mergePlainObjects_eq h]
  omega

theorem length_mergePlainObjects_le (ts : List Ty) : (mergePlainObjects ts).length ≤ ts.length := by
  by_cases h : (ts.filterMap Ty.plainObject?).length ≤ 1
  · exact Nat.le_of_eq (by rw [mergePlainObjects_eq_self h])
  · exact Nat.le_of_lt (length_mergePlainObjects_lt h)

theorem objects_of_length (h : ts.length ≤ (mergePlainObjects ts).length) :
    (ts.filterMap Ty.plainObject?).length ≤ 1 := by
  by_contra hobjs
  exact absurd h (Nat.not_le.2 (length_mergePlainObjects_lt hobjs))

end

/-! ## Intersections -/

theorem Ty.intersectLeavesList_simplest {ts : List Ty} (hts : ∀ t ∈ ts, t.Simplest) :
    ∀ u ∈ Ty.intersectLeavesList ts, u.Simplest ∧ ∀ i us, u ≠ .intersect i us := by
  induction ts with
  | nil => exact List.forall_mem_nil _
  | cons t ts ih =>
    intro u hu
    rw [Ty.intersectLeavesList, List.mem_append] at hu
    rcases hu with hu | hu
    · have ht := hts t (.head _)
      cases t with
      | intersect i us =>
        have hus : SimplestIntersection us := ht.head
        rw [Ty.intersectLeaves, Ty.intersectLeavesList_eq_self hus.flat] at hu
        refine ⟨ht.parts _ (List.mem_map_of_mem hu), fun j vs hvs => ?_⟩
        subst hvs
        exact hus.flat j vs hu
      | _ =>
        simp only [Ty.intersectLeaves, List.mem_singleton] at hu
        subst hu
        exact ⟨ht, fun _ _ h => by cases h⟩
    · exact ih (fun t ht => hts t (.tail _ ht)) u hu

/-- The operands of the simplest form of an intersection. -/
def Ty.operands (ts : List Ty) : List Ty :=
  mergePlainObjects (distinct (Ty.intersectLeavesList ts))

theorem Ty.operands_simplest {ts : List Ty} (hts : ∀ t ∈ ts, t.Simplest) :
    (∀ t ∈ Ty.operands ts, t.Simplest) ∧ (∀ i us, .intersect i us ∉ Ty.operands ts) ∧
      ((Ty.operands ts).Pairwise fun t u => (t == u) = false) ∧
      ((Ty.operands ts).filterMap Ty.plainObject?).length ≤ 1 := by
  have hlvs := fun u hu =>
    Ty.intersectLeavesList_simplest hts u ((distinct_sublist _).subset hu)
  exact mergePlainObjects_simplest (fun u hu => (hlvs u hu).1)
    (fun i us hus => (hlvs _ hus).2 i us rfl) (distinct_pairwise _)

theorem Ty.unknown_simplest : Ty.unknown.Simplest :=
  ⟨trivial, List.forall_mem_nil _⟩

theorem simplifyIntersection_simplest {ts : List Ty} (hts : ∀ t ∈ ts, t.Simplest) :
    (simplifyIntersection ts).Simplest := by
  show (Ty.meetDistinct (Ty.operands ts)).Simplest
  obtain ⟨hsim, hflat, hdiff, hobjs⟩ := Ty.operands_simplest hts
  match Ty.operands ts, hsim, hflat, hdiff, hobjs with
  | [], _, _, _, _ => exact Ty.unknown_simplest
  | [t], hsim, _, _, _ => exact hsim t (.head _)
  | t :: u :: us, hsim, hflat, hdiff, hobjs =>
    refine ⟨⟨hflat, hdiff, by simp, hobjs⟩, fun n hn => ?_⟩
    obtain ⟨v, hv, rfl⟩ := List.mem_map.1 hn
    exact hsim v hv

theorem SimplestIntersection.of_same {i : NodeId} {ts : List Ty} (hts : ∀ t ∈ ts, t.Simplest)
    (h : (simplifyIntersection ts == .intersect i ts) = true) : SimplestIntersection ts := by
  obtain ⟨-, hlvs, -, -⟩ := Ty.operands_simplest hts
  replace h : (Ty.meetDistinct (Ty.operands ts)).same (.intersect i ts) = true := h
  obtain ⟨hsame, hlen⟩ : Ty.sameList (Ty.operands ts) ts = true ∧
      2 ≤ (Ty.operands ts).length := by
    match Ty.operands ts, hlvs, h with
    | [], _, h => simp [Ty.meetDistinct, Ty.unknown, Ty.reference, Ty.same] at h
    | [t], hlvs, h =>
      cases t with
      | intersect j us => exact absurd (.head _) (hlvs j us)
      | _ => simp [Ty.meetDistinct, Ty.same] at h
    | t :: u :: us, _, h =>
      simp only [Ty.meetDistinct, Ty.ofIntersect, Ty.same] at h
      exact ⟨h, by simp⟩
  have hflat : ∀ i us, .intersect i us ∉ ts := by
    intro j us hus
    obtain ⟨u, hu, husame⟩ := exists_of_forall₂ (Ty.forall₂_of_sameList hsame).flip hus
    cases u with
    | intersect k vs => exact hlvs k vs hu
    | _ => simp [Ty.same] at husame
  have hle := (Ty.forall₂_of_sameList hsame).length_eq
  rw [Ty.operands, Ty.intersectLeavesList_eq_self hflat] at hle hlen
  -- Neither removing repetitions nor merging can have made the list shorter.
  have hmrg := length_mergePlainObjects_le (distinct ts)
  have hself : distinct ts = ts := distinct_eq_of_length (by omega)
  rw [hself] at hle hlen
  exact ⟨hflat, hself ▸ distinct_pairwise ts, by omega, objects_of_length (by omega)⟩

/-! ## The walk -/

/-- **A type whose parts are in simplest form is brought to simplest form**, also if it is kept. -/
theorem simplified?_simplest (hparts : ∀ n ∈ (Node.ty t).children, n.Simplest) :
    ((simplified? t).getD t).Simplest := by
  cases t with
  | union i ts =>
    have hts : ∀ u ∈ ts, u.Simplest := fun u hu => hparts _ (List.mem_map_of_mem hu)
    dsimp only [simplified?]
    split
    · exact ⟨SimplestUnion.of_same hts ‹_›, hparts⟩
    · exact simplifyUnion_simplest hts
  | intersect i ts =>
    have hts : ∀ u ∈ ts, u.Simplest := fun u hu => hparts _ (List.mem_map_of_mem hu)
    dsimp only [simplified?]
    split
    · exact ⟨SimplestIntersection.of_same hts ‹_›, hparts⟩
    · exact simplifyIntersection_simplest hts
  | _ => exact ⟨trivial, hparts⟩

theorem Node.Alike.isTy_eq {n' : Node} (h : n.Alike n') : n'.isTy = n.isTy := by
  cases h <;> rfl

theorem Node.withMembers?_spec {n' : Node} {ds : List Decl} (h : n.withMembers? ds = some n') :
    n'.isTy = false ∧ n'.children = ds.map .decl := by
  cases n with
  | file f =>
    cases h
    exact ⟨rfl, rfl⟩
  | decl d =>
    obtain ⟨d', hd', rfl⟩ := Option.map_eq_some_iff.1 h
    cases d <;> cases hd' <;> exact ⟨rfl, rfl⟩
  | _ => cases h

theorem Node.simplest_of_parts (hn : n.isTy = false) (h : ∀ m ∈ n.children, m.Simplest) :
    n.Simplest := by
  cases n with
  | ty t => cases hn
  | _ => exact ⟨trivial, h⟩

theorem Walked.simplest {ns ns' : List Node} {b : Bool}
    (h : Walked (fun _ n' _ => n'.Simplest) ns ns' b) : ∀ n ∈ ns', n.Simplest := by
  induction h with
  | nil => exact List.forall_mem_nil _
  | cons h _ ih =>
    intro n hn
    rcases List.mem_cons.1 hn with rfl | hn
    · exact h
    · exact ih n hn

theorem simplifyHooks_builds :
    simplifyHooks.Builds computing (fun _ _ => True) (fun _ _ p => p = none)
      (fun _ _ _ n n' _ => n'.isTy = n.isTy ∧ ∀ m ∈ n'.children, m.Simplest)
      fun _ _ _ _ n' _ => n'.Simplest where
  idle := {}
  child _ _ := trivial
  mono _ _ h := h
  plain _ _ _ h := ⟨h.alike.isTy_eq, h.parts.simplest⟩
  enterFile _ := rfl
  enterDecl _ := rfl
  newMembers {_ _ _ n ds ds' _} owner _ hds hwlk := by
    intro n' hn'
    obtain ⟨hty, hch⟩ := Node.withMembers?_spec hn'
    have hn : n.isTy = false := by
      cases n with
      | ty t => cases hds
      | _ => rfl
    exact ⟨hty.trans hn.symm, hch ▸ hwlk.simplest⟩
  newClassMembers owner _ h hms := by
    intro n'' hn''
    obtain rfl := Node.withClassMembers?_eq hms hn''
    exact ⟨h.alike.isTy_eq, h.parts.simplest⟩
  leaveFile _ hp hS := by
    subst hp
    exact Node.simplest_of_parts rfl hS.2
  leaveDecl _ hp hS := by
    subst hp
    exact Node.simplest_of_parts rfl hS.2
  leaveTy _ hS := simplified?_simplest hS.2
  keep {_ _ _ n _ _} _ hleft hS := by
    have hn : n.isTy = false := by
      cases n with
      | ty t => cases hleft
      | _ => rfl
    exact Node.simplest_of_parts (hS.1.trans hn) hS.2

/-- **Simplifying brings every node of a file to simplest form.** -/
theorem simplifyTypes_file_simplest (f : File) : (Node.file (simplifyTypes f).value).Simplest :=
  walkFile_builds simplifyHooks_builds f trivial ()

theorem simplifyTypes_of_simplest {f : File} (hf : (Node.file f).Simplest) :
    simplifyTypes f = .keep f := by
  refine simplifyTypes_eq_keep fun {t} ht => ?_
  have hsim := ht.simplest hf
  cases t with
  | union i ts => exact simplified?_union hsim.head
  | intersect i ts => exact simplified?_intersect hsim.head
  | _ => rfl

/-- **What simplifying gives is in simplest form everywhere, and simplifying it again keeps it.** -/
theorem simplifyTypes_simplest (f : File) :
    (∀ i ts, (simplifyTypes f).value.Contains (.ty (.union i ts)) → SimplestUnion ts) ∧
      (∀ i ts, (simplifyTypes f).value.Contains (.ty (.intersect i ts)) →
        SimplestIntersection ts) ∧
      simplifyTypes (simplifyTypes f).value = .keep (simplifyTypes f).value := by
  have hf := simplifyTypes_file_simplest f
  exact ⟨fun _ _ h => (h.simplest hf).head, fun _ _ h => (h.simplest hf).head,
    simplifyTypes_of_simplest hf⟩

/-- An alias with a bound and a target. -/
def boundedAlias (bound target : Ty) : File :=
  File.ofMembers "lib" [.typeAlias ⟨{}, true, "A", [⟨{}, "T", some bound, none⟩], target, .noPath⟩]

/-- The bound loses its repetition, the objects of the target are merged, and nothing is left to do. -/
theorem simplifyTypes_simplest_in_alias :
    let f := boundedAlias (.union 0 [.number, .union 0 [.string, .number]])
      (.intersect 0 [.object {} [.ofType "a" .string], .reference ["B"] [],
        .intersect 0 [.object {} [.ofType "b" .number]]])
    let g := boundedAlias (.union 0 [.number, .string])
      (.intersect 0 [.object {} [.ofType "a" .string, .ofType "b" .number], .reference ["B"] []])
    simplifyTypes f = .new g ∧ simplifyTypes g = .keep g ∧ SimplestUnion [.number, .string] ∧
      SimplestIntersection
        [.object {} [.ofType "a" .string, .ofType "b" .number], .reference ["B"] []] := by
  intro f g
  have hrun : simplifyTypes f = .new g := by cbv
  obtain ⟨hunion, hintersection, hrests⟩ := simplifyTypes_simplest f
  rw [hrun] at hunion hintersection hrests
  have halias : g.Contains (.decl (.typeAlias _)) := .child .file (.head _)
  exact ⟨hrun, hrests, hunion 0 _ (.child (.child halias (.head _)) (.head _)),
    hintersection 0 _ (.child halias (.tail _ (.head _)))⟩

end Ambient
