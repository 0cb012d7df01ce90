import Ambient.Proofs.Leaves

/-!
# One object over another

Merging the members of an object into those of the objects before it keeps a place for each name: the
first one. The members that are found there in the end are those of the later object.

* `marked` tells which names of a list stand there for the first time, and `overlayKeys` which names
  are left, in order, when one list of names is laid over another. It is associative.
* `Overlays` says what an overlay is: its names, and the members of each name. That determines it
  (`Overlays.unique`), so overlays are associative as well (`overlay_assoc`).
* `foldl_mergeMember`: merging the members of an object one by one is an overlay. `mergeObjects_eq`:
  merging several objects is one overlay after the other.
* `simplifyIntersection_merges`: what the intersection of several objects becomes.
-/

namespace Ambient

/-! ## Groups -/

variable {x : Ident} {ks ls : List (Option Ident)} {k : Option Ident}

section
variable {ε δ : Type} {key : ε → Option Ident} {key' : δ → Option Ident}

def group (key : ε → Option Ident) (k : Option Ident) (es : List ε) : List ε :=
  es.filter (key · == k)

theorem group_append (k : Option Ident) (es fs : List ε) :
    group key k (es ++ fs) = group key k es ++ group key k fs :=
  List.filter_append es fs

theorem mem_group {es : List ε} {e : ε} : e ∈ group key k es ↔ e ∈ es ∧ key e = k := by
  rw [group, List.mem_filter, beq_iff_eq]

theorem group_eq_nil {es : List ε} : group key k es = [] ↔ k ∉ es.map key := by
  rw [group, List.filter_eq_nil_iff, List.mem_map]
  simp only [beq_iff_eq, not_exists, not_and]

/-- A list is known from its keys and the elements of each key. -/
theorem forall₂_of_groups {R : ε → δ → Prop} {es : List ε} {fs : List δ}
    (hkeys : es.map key = fs.map key')
    (hgrp : ∀ k, List.Forall₂ R (group key k es) (group key' k fs)) : List.Forall₂ R es fs := by
  induction es generalizing fs with
  | nil =>
    cases fs with
    | nil => exact .nil
    | cons f fs => cases hkeys
  | cons e es ih =>
    cases fs with
    | nil => cases hkeys
    | cons f fs =>
      obtain ⟨hkey, hkeys⟩ := List.cons.inj hkeys
      have hhead := hgrp (key e)
      simp only [group, List.filter_cons, beq_self_eq_true, if_true, ← hkey] at hhead
      obtain ⟨hef, hsame⟩ := List.forall₂_cons.1 hhead
      refine .cons hef (ih hkeys fun k => ?_)
      by_cases hk : key e = k
      · exact hk ▸ hsame
      · simpa [group, List.filter_cons, ← hkey, hk] using hgrp k

end

/-! ## Names laid over names -/

/-- Each key with whether it is a name that stands there for the first time. -/
def marked : List (Option Ident) → List (Bool × Option Ident)
  | [] => []
  | k :: ks => (k.isSome, k) :: (marked ks).map fun e => if e.2 = k then (false, e.2) else e

/-- The marks of a key that occurs a number of times. -/
def openings (k : Option Ident) : Nat → List (Bool × Option Ident)
  | 0 => []
  | n + 1 => (k.isSome, k) :: List.replicate n (false, k)

theorem unmark_snd (k : Option Ident) (e : Bool × Option Ident) :
    (if e.2 = k then (false, e.2) else e).2 = e.2 := by
  split <;> rfl

theorem marked_map_snd (ks : List (Option Ident)) : (marked ks).map (·.2) = ks := by
  induction ks with
  | nil => rfl
  | cons k ks ih =>
    have hsnd : ((·.2) ∘ fun e : Bool × Option Ident => if e.2 = k then (false, e.2) else e) =
        (·.2) :=
      funext (unmark_snd k)
    rw [marked, List.map_cons, List.map_map, hsnd, ih]

theorem group_marked (k : Option Ident) (ks : List (Option Ident)) :
    group (·.2) k (marked ks) = openings k (ks.count k) := by
  induction ks with
  | nil => rfl
  | cons l ks ih =>
    simp only [group] at ih ⊢
    rw [marked, List.filter_cons, List.filter_map, List.count_cons]
    have hkey : ((fun e : Bool × Option Ident => e.2 == k) ∘
        fun e => if e.2 = l then (false, e.2) else e) = fun e => e.2 == k := by
      funext e
      simp only [Function.comp]
      split <;> rfl
    rw [hkey, ih]
    by_cases hlk : l = k
    · subst hlk
      cases List.count l ks with
      | zero => simp [openings]
      | succ n => simp [openings, List.replicate_succ]
    · have hkl : ¬ k = l := fun h => hlk h.symm
      simp only [beq_eq_false_iff_ne.2 hlk, Bool.false_eq_true, if_false, Nat.add_zero]
      cases List.count k ks with
      | zero => rfl
      | succ n => simp [openings, hkl]

theorem length_openings (k : Option Ident) (n : Nat) : (openings k n).length = n := by
  cases n <;> simp [openings]

theorem eq_marked {es : List (Bool × Option Ident)}
    (h : ∀ k, ∃ n, group (·.2) k es = openings k n) : es = marked (es.map (·.2)) := by
  rw [← List.forall₂_eq_eq_eq]
  refine forall₂_of_groups (marked_map_snd _).symm fun k => ?_
  obtain ⟨n, hn⟩ := h k
  have hcount : (es.map (·.2)).count k = n := by
    rw [List.count_eq_length_filter, List.filter_map, List.length_map,
      ← length_openings k n, ← hn]
    rfl
  rw [group_marked, hcount, hn, List.forall₂_eq_eq_eq]

/-- Of names that the other list has too, the first place is kept. -/
def keptBelow (ls : List (Option Ident)) (e : Bool × Option Ident) : Bool :=
  e.1 || e.2.isNone || e.2 ∉ ls

/-- Of names that the other list has too, the first place is given up. -/
def keptAbove (ks : List (Option Ident)) (e : Bool × Option Ident) : Bool :=
  !e.1 || e.2 ∉ ks

/-- The keys `ls` laid over the keys `ks`: a name of both lists stands where it first stood in `ks`,
and its further occurrences are those in `ls`. -/
def overlayKeys (ks ls : List (Option Ident)) : List (Option Ident) :=
  ((marked ks).filter (keptBelow ls) ++ (marked ls).filter (keptAbove ks)).map (·.2)

theorem group_filter {ε : Type} {key : ε → Option Ident} (k : Option Ident) (p : ε → Bool)
    (es : List ε) : group key k (es.filter p) = (group key k es).filter p := by
  simp only [group, List.filter_filter, Bool.and_comm]

theorem marked_overlayKeys (ks ls : List (Option Ident)) :
    marked (overlayKeys ks ls) =
      (marked ks).filter (keptBelow ls) ++ (marked ls).filter (keptAbove ks) := by
  refine (eq_marked fun k => ?_).symm
  rw [group_append, group_filter, group_filter, group_marked, group_marked]
  cases k with
  | none =>
    refine ⟨ks.count none + ls.count none, ?_⟩
    have hnone : ∀ n, openings none n = List.replicate n (false, none) := by
      intro n
      cases n <;> rfl
    simp [hnone, keptBelow, keptAbove]
  | some x =>
    -- The name is in one list only, or its first place is in `ks` and the further ones in `ls`.
    cases hk : ks.count (some x) with
    | zero =>
      have hks : some x ∉ ks := List.count_eq_zero.1 hk
      refine ⟨ls.count (some x), ?_⟩
      cases List.count (some x) ls <;> simp [openings, keptAbove, hks]
    | succ m =>
      have hks : some x ∈ ks := List.count_pos_iff.1 (by omega)
      cases hl : ls.count (some x) with
      | zero =>
        have hls : some x ∉ ls := List.count_eq_zero.1 hl
        exact ⟨m + 1, by simp [openings, keptBelow, hls]⟩
      | succ n =>
        have hls : some x ∈ ls := List.count_pos_iff.1 (by omega)
        exact ⟨n + 1, by simp [openings, keptBelow, keptAbove, hks, hls]⟩

theorem marked_mem {e : Bool × Option Ident} (h : e ∈ marked ks) : e.2 ∈ ks :=
  marked_map_snd ks ▸ List.mem_map_of_mem h

theorem mem_overlayKeys : k ∈ overlayKeys ks ls ↔ k ∈ ks ∨ k ∈ ls := by
  constructor
  · intro h
    obtain ⟨e, he, rfl⟩ := List.mem_map.1 h
    rcases List.mem_append.1 he with he | he
    · exact .inl (marked_mem (List.mem_filter.1 he).1)
    · exact .inr (marked_mem (List.mem_filter.1 he).1)
  · have hopen : ∀ {js}, k ∈ js → (k.isSome, k) ∈ marked js := by
      intro js hjs
      have hgroup := group_marked k js
      obtain ⟨n, hn⟩ := Nat.exists_eq_succ_of_ne_zero (Nat.ne_of_gt (List.count_pos_iff.2 hjs))
      rw [hn] at hgroup
      exact (mem_group.1 (hgroup ▸ .head _ : (k.isSome, k) ∈ group (·.2) k (marked js))).1
    intro h
    refine List.mem_map.2 ⟨(k.isSome, k), ?_, rfl⟩
    by_cases hks : k ∈ ks
    · refine List.mem_append_left _ (List.mem_filter.2 ⟨hopen hks, ?_⟩)
      cases k <;> simp [keptBelow]
    · refine List.mem_append_right _ (List.mem_filter.2 ⟨hopen (h.resolve_left hks), ?_⟩)
      simp [keptAbove, hks]

theorem overlayKeys_nil_right (ks : List (Option Ident)) : overlayKeys ks [] = ks := by
  have hbelow : (marked ks).filter (keptBelow []) = marked ks :=
    List.filter_eq_self.2 fun e _ => by simp [keptBelow]
  simp [overlayKeys, marked, hbelow, marked_map_snd]

theorem marked_concat (ks : List (Option Ident)) (k : Option Ident) :
    marked (ks ++ [k]) = marked ks ++ [(k.isSome && k ∉ ks, k)] := by
  induction ks with
  | nil => simp [marked]
  | cons l ks ih =>
    rw [List.cons_append, marked, ih, marked, List.map_append]
    by_cases hkl : k = l <;> simp [hkl]

theorem overlayKeys_concat (h : k = none ∨ k ∉ ks ∨ k ∈ ls) :
    overlayKeys ks (ls ++ [k]) = overlayKeys ks ls ++ [k] := by
  have hbelow : (marked ks).filter (keptBelow (ls ++ [k])) = (marked ks).filter (keptBelow ls) := by
    refine List.filter_congr fun e he => ?_
    have := marked_mem he
    simp only [keptBelow, List.mem_append, List.mem_singleton]
    by_cases hek : e.2 = k
    · rcases h with h | h | h
      · simp [hek, h]
      · exact absurd (hek ▸ this) h
      · simp [hek, h]
    · simp [hek]
  have habove : keptAbove ks (k.isSome && k ∉ ls, k) = true := by
    rcases h with h | h | h <;> simp [keptAbove, h]
  rw [overlayKeys, overlayKeys, marked_concat, hbelow, List.filter_append,
    List.filter_cons_of_pos habove]
  simp

/-- A name that meets the same name from below, for the first time, takes its first place and ends
the others. -/
theorem overlayKeys_concat_meet (hks : some x ∈ ks) (hls : some x ∉ ls) :
    overlayKeys ks (ls ++ [some x]) =
      ((marked (overlayKeys ks ls)).filter fun e => e.1 || e.2 != some x).map (·.2) := by
  have hbelow : keptBelow (ls ++ [some x]) =
      fun e => (e.1 || e.2 != some x) && keptBelow ls e := by
    funext e
    by_cases hex : e.2 = some x <;> cases he : e.1 <;> simp [keptBelow, hex, he]
  have habove : keptAbove ks (true, some x) = false := by simp [keptAbove, hks]
  -- The keys above do not have the name.
  have hrest : (((marked ls).filter (keptAbove ks)).filter fun e => e.1 || e.2 != some x) =
      (marked ls).filter (keptAbove ks) := by
    refine List.filter_eq_self.2 fun e he => ?_
    have hne : e.2 ≠ some x := fun h => hls (h ▸ marked_mem (List.mem_filter.1 he).1)
    simp [hne]
  rw [marked_overlayKeys, List.filter_append, hrest, List.filter_filter, overlayKeys, marked_concat,
    List.filter_append]
  simp [hls, habove, hbelow]

/-- Ending all places of a name but the first. -/
theorem filter_marked_of_first (hks : some x ∉ ks) :
    ((marked (ks ++ some x :: ls)).filter fun e => e.1 || e.2 != some x).map (·.2) =
      ks ++ some x :: ls.filter (· != some x) := by
  induction ks with
  | nil =>
    have hrest : ∀ es : List (Bool × Option Ident),
        ((es.map fun e => if e.2 = some x then (false, e.2) else e).filter
          fun e => e.1 || e.2 != some x).map (·.2) = (es.map (·.2)).filter (· != some x) := by
      intro es
      induction es with
      | nil => rfl
      | cons e es ih =>
        by_cases hex : e.2 = some x <;> simp [hex, ih]
    simp only [List.nil_append, marked, Option.isSome_some, List.filter_cons, Bool.true_or, if_true,
      List.map_cons, hrest, marked_map_snd]
  | cons k ks ih =>
    obtain ⟨hk, hks⟩ := not_or.1 (List.mem_cons.not.1 hks)
    have hsame : ((fun e : Bool × Option Ident => e.1 || e.2 != some x) ∘
        fun e => if e.2 = k then (false, e.2) else e) = fun e => e.1 || e.2 != some x := by
      funext e
      by_cases hek : e.2 = k
      · simp [hek, Ne.symm hk]
      · simp [hek]
    have hsnd : ((·.2) ∘ fun e : Bool × Option Ident => if e.2 = k then (false, e.2) else e) = (·.2) :=
      funext (unmark_snd k)
    rw [List.cons_append, marked, List.filter_cons_of_pos (by simp [Ne.symm hk]), List.filter_map,
      hsame, List.map_cons, List.map_map, hsnd, ih hks, List.cons_append]

theorem distinct_names (ks : List (Option Ident)) :
    distinct (ks.filterMap id) = ((marked ks).filter (·.1)).filterMap (·.2) := by
  have hunmk : ∀ (k : Option Ident) (es : List (Bool × Option Ident)),
      ((es.map fun e => if e.2 = k then (false, e.2) else e).filter (·.1)).filterMap (·.2) =
        ((es.filter (·.1)).filterMap (·.2)).filter fun y => some y ≠ k := by
    intro k es
    induction es with
    | nil => rfl
    | cons e es ih =>
      rw [List.map_cons, List.filter_cons]
      by_cases hk : e.2 = k
      · cases he : e.1 <;> cases k <;> simp [hk, he, ih]
      · cases he : e.1 <;> cases he' : e.2 <;> simp_all
  induction ks with
  | nil => rfl
  | cons k ks ih =>
    cases k with
    | none =>
      change distinct (ks.filterMap id) = _
      rw [ih]
      simp [marked, hunmk]
    | some x =>
      change distinct (x :: ks.filterMap id) = _
      simp only [marked, distinct, ih, Option.isSome_some, List.filter_cons, if_true,
        List.filterMap_cons, hunmk]
      refine congrArg (x :: ·) (List.filter_congr fun y _ => ?_)
      by_cases hxy : x = y
      · simp [hxy]
      · simp [hxy, Ne.symm hxy]

theorem distinct_names_overlayKeys (ks ls : List (Option Ident)) :
    distinct ((overlayKeys ks ls).filterMap id) = distinct (ks.filterMap id ++ ls.filterMap id) := by
  have hbelow : (((marked ks).filter (keptBelow ls)).filter (·.1)) = (marked ks).filter (·.1) := by
    rw [List.filter_filter]
    refine List.filter_congr fun e _ => ?_
    cases he : e.1 <;> simp [keptBelow, he]
  have habove : (((marked ls).filter (keptAbove ks)).filter (·.1)).filterMap (·.2) =
      (((marked ls).filter (·.1)).filterMap (·.2)).filter fun y => !(ks.filterMap id).any (· == y) := by
    have hany : ∀ y, (ks.filterMap id).any (· == y) = decide (some y ∈ ks) := by
      intro y
      rw [Bool.eq_iff_iff, List.any_eq_true, decide_eq_true_iff]
      simp only [List.mem_filterMap, id, exists_eq_right, beq_iff_eq]
    simp only [hany]
    induction marked ls with
    | nil => rfl
    | cons e es ih =>
      obtain ⟨b, k⟩ := e
      cases b with
      | false => simpa [keptAbove] using ih
      | true =>
        by_cases hk : k ∈ ks <;> cases k <;> simp_all [keptAbove]
  rw [distinct_names, marked_overlayKeys, List.filter_append, List.filterMap_append, hbelow, habove,
    distinct_append, distinct_names, distinct_names]

/-! ## Members laid over members -/

/-- `cs` are the elements `bs` laid over `as`: their keys are laid over each other, and of a name that
`bs` has the elements are those of `bs`. -/
structure Overlays {ε : Type} (key : ε → Option Ident) (as bs cs : List ε) : Prop where
  keys : cs.map key = overlayKeys (as.map key) (bs.map key)
  named : ∀ x : Ident, group key (some x) cs =
    if some x ∈ bs.map key then group key (some x) bs else group key (some x) as
  unnamed : group key none cs = group key none as ++ group key none bs

section
variable {ε δ : Type} {key : ε → Option Ident} {key' : δ → Option Ident} {as bs cs : List ε}
  {as' bs' cs' : List δ}

theorem Overlays.congr {R : ε → δ → Prop} (hR : ∀ {e d}, R e d → key e = key' d)
    (h : Overlays key as bs cs) (h' : Overlays key' as' bs' cs') (has : List.Forall₂ R as as')
    (hbs : List.Forall₂ R bs bs') : List.Forall₂ R cs cs' := by
  have hkeys : ∀ {es ds}, List.Forall₂ R es ds → es.map key = ds.map key' := fun hes =>
    hes.map_eq hR
  have hgrp : ∀ {es ds}, List.Forall₂ R es ds → ∀ k, List.Forall₂ R (group key k es) (group key' k ds) :=
    fun hes k => hes.filter fun hed => by rw [hR hed]
  refine forall₂_of_groups (by rw [h.keys, h'.keys, hkeys has, hkeys hbs]) fun k => ?_
  cases k with
  | none => exact h.unnamed ▸ h'.unnamed ▸ (hgrp has none).append (hgrp hbs none)
  | some x =>
    rw [h.named, h'.named, hkeys hbs]
    split
    · exact hgrp hbs _
    · exact hgrp has _

theorem Overlays.unique {ds : List ε} (h : Overlays key as bs cs) (h' : Overlays key as bs ds) :
    cs = ds :=
  List.forall₂_eq_eq_eq ▸ h.congr (fun hed => congrArg key hed) h'
    (List.forall₂_eq_eq_eq.symm ▸ rfl) (List.forall₂_eq_eq_eq.symm ▸ rfl)

theorem Overlays.mem (h : Overlays key as bs cs) {e : ε} (he : e ∈ cs) : e ∈ as ∨ e ∈ bs := by
  have hgroup : e ∈ group key (key e) cs := mem_group.2 ⟨he, rfl⟩
  cases hk : key e with
  | none =>
    rw [hk, h.unnamed, List.mem_append] at hgroup
    exact hgroup.imp (fun h => (mem_group.1 h).1) fun h => (mem_group.1 h).1
  | some x =>
    rw [hk, h.named] at hgroup
    split at hgroup
    · exact .inr (mem_group.1 hgroup).1
    · exact .inl (mem_group.1 hgroup).1

theorem Overlays.map (h : Overlays key as bs cs) (f : ε → δ) (hf : ∀ e, key' (f e) = key e) :
    Overlays key' (as.map f) (bs.map f) (cs.map f) := by
  have hkeys : ∀ es : List ε, (es.map f).map key' = es.map key := by
    intro es
    rw [List.map_map]
    exact List.map_congr_left fun e _ => hf e
  have hgrp : ∀ k (es : List ε), group key' k (es.map f) = (group key k es).map f := by
    intro k es
    rw [group, List.filter_map, group]
    exact congrArg (List.map f) (List.filter_congr fun e _ => by simp only [Function.comp, hf])
  refine ⟨by rw [hkeys, hkeys, hkeys, h.keys], fun x => ?_, ?_⟩
  · rw [hgrp, h.named, hkeys, hgrp, hgrp]
    split <;> rfl
  · rw [hgrp, h.unnamed, hgrp, hgrp, List.map_append]

theorem Overlays.nil_right (as : List ε) : Overlays key as [] as := by
  exact ⟨(overlayKeys_nil_right _).symm, fun x => rfl, (List.append_nil _).symm⟩

theorem Overlays.concat (h : Overlays key as bs cs) {e : ε}
    (he : key e = none ∨ key e ∉ as.map key ∨ key e ∈ bs.map key) :
    Overlays key as (bs ++ [e]) (cs ++ [e]) := by
  refine ⟨?_, fun x => ?_, ?_⟩
  · simp only [List.map_append, h.keys, List.map_cons, List.map_nil, overlayKeys_concat he]
  · rw [group_append, group_append, h.named]
    simp only [List.map_append, List.mem_append, List.map_cons, List.map_nil, List.mem_singleton]
    by_cases hx : some x = key e
    · by_cases hbs : some x ∈ bs.map key
      · simp [hbs]
      · have has : some x ∉ as.map key := by
          rcases he with he | he | he
          · cases hx.trans he
          · exact hx ▸ he
          · exact absurd (hx ▸ he) hbs
        rw [if_neg hbs, if_pos (.inr hx), group_eq_nil.2 has, group_eq_nil.2 hbs]
    · have hnil : group key (some x) [e] = [] := by
        rw [group_eq_nil]
        simpa using hx
      simp [hx, hnil]
  · rw [group_append, group_append, h.unnamed, List.append_assoc]

/-- An element that meets its name from below, for the first time, takes the first place of the name
and ends the others. -/
theorem Overlays.meet {pre post : List ε} {c e : ε} (h : Overlays key as bs (pre ++ c :: post))
    (he : key e = some x) (hc : key c = some x) (hpre : some x ∉ pre.map key)
    (has : some x ∈ as.map key) (hbs : some x ∉ bs.map key) :
    Overlays key as (bs ++ [e]) (pre ++ e :: post.filter (key · != some x)) := by
  have hother : ∀ k, k ≠ some x →
      group key k (pre ++ e :: post.filter (key · != some x)) = group key k (pre ++ c :: post) ∧
        group key k [e] = [] := by
    intro k hk
    have hskip : ∀ {d ds}, key d = some x → group key k (d :: ds) = group key k ds := fun hd =>
      List.filter_cons_of_neg (by simpa [hd] using Ne.symm hk)
    refine ⟨?_, hskip he⟩
    rw [group_append, group_append, hskip he, hskip hc, group_filter]
    refine congrArg (_ ++ ·) (List.filter_eq_self.2 fun d hd => ?_)
    simpa [(mem_group.1 hd).2] using hk
  refine ⟨?_, fun y => ?_, ?_⟩
  · have hkeys := h.keys
    rw [List.map_append, List.map_cons, hc] at hkeys
    rw [List.map_append, List.map_append, List.map_cons, List.map_cons, List.map_nil, he,
      overlayKeys_concat_meet has hbs, ← hkeys, filter_marked_of_first hpre, List.filter_map]
    rfl
  · by_cases hy : y = x
    · subst hy
      have hrest : group key (some y) (post.filter (key · != some y)) = [] := by
        rw [group_filter, List.filter_eq_nil_iff]
        intro d hd
        simp [(mem_group.1 hd).2]
      have hone : ∀ ds, group key (some y) (e :: ds) = e :: group key (some y) ds := fun ds =>
        List.filter_cons_of_pos (by simp [he])
      simp only [List.map_append, List.map_cons, List.map_nil, he, List.mem_append,
        List.mem_singleton, or_true, if_true, group_append, hone, hrest, group_eq_nil.2 hpre,
        group_eq_nil.2 hbs]
      rfl
    · have hne : (some y : Option Ident) ≠ some x := fun h => hy (Option.some.inj h)
      rw [(hother _ hne).1, h.named, group_append, (hother _ hne).2, List.append_nil]
      simp [he, hy]
  · obtain ⟨hsame, hnil⟩ := hother none (by simp)
    rw [hsame, h.unnamed, group_append, hnil, List.append_nil]

end

/-! ## Merging is laying over -/

def entryName (e : Nat × Member) : Option Ident := e.2.name?

/-- A member is put at the end, or takes the first place of its name from another object. -/
theorem mergeMember_cases (origin : Nat) (merged : List (Nat × Member)) (m : Member) :
    (mergeMember origin merged m = merged ++ [(origin, m)] ∧
      ∀ x, m.name? = some x → ∀ e ∈ merged, overriddenBy origin x e = false) ∨
    ∃ x pre c post, m.name? = some x ∧ merged = pre ++ c :: post ∧
      (∀ e ∈ pre, overriddenBy origin x e = false) ∧ overriddenBy origin x c = true ∧
      mergeMember origin merged m =
        pre ++ (origin, m) :: post.filter fun e => !overriddenBy origin x e := by
  unfold mergeMember
  split
  · rename_i hname
    exact .inl ⟨rfl, fun x hx => by cases hname.symm.trans hx⟩
  · rename_i x hname
    split
    · rename_i hnone
      refine .inl ⟨rfl, fun y hy => ?_⟩
      cases hname.symm.trans hy
      exact List.findIdx?_eq_none_iff.1 hnone
    · rename_i i hsome
      obtain ⟨hi, hc, hpre⟩ := List.findIdx?_eq_some_iff_getElem.1 hsome
      refine .inr ⟨x, merged.take i, merged[i], merged.drop (i + 1), hname, ?_, fun e he => ?_, hc, rfl⟩
      · rw [List.getElem_cons_drop, List.take_append_drop]
      · obtain ⟨j, hj, rfl⟩ := List.mem_take_iff_getElem.1 he
        simpa using hpre j (by omega)

variable {below merged : List (Nat × Member)} {origin : Nat}

theorem Overlays.mergeMember {ms : List Member} (hbelow : ∀ e ∈ below, e.1 ≠ origin)
    (h : Overlays entryName below (ms.map (origin, ·)) merged) (m : Member) :
    Overlays entryName below ((ms ++ [m]).map (origin, ·)) (mergeMember origin merged m) := by
  have hkeys : ∀ ns : List Member, (ns.map (origin, ·)).map entryName = ns.map Member.name? := by
    intro ns
    rw [List.map_map]
    rfl
  -- Entries of a name come from the object if it has the name, and else from below.
  have hover : ∀ x e, e ∈ merged → entryName e = some x →
      overriddenBy origin x e = decide (some x ∉ ms.map Member.name?) := by
    intro x e he hname
    have hgroup : e ∈ group entryName (some x) merged := mem_group.2 ⟨he, hname⟩
    rw [h.named, hkeys] at hgroup
    replace hname : e.2.name? = some x := hname
    by_cases hms : some x ∈ ms.map Member.name?
    · rw [if_pos hms] at hgroup
      obtain ⟨n, hn, rfl⟩ := List.mem_map.1 (mem_group.1 hgroup).1
      simp [overriddenBy, hms]
    · rw [if_neg hms] at hgroup
      have htag := hbelow e (mem_group.1 hgroup).1
      simp [overriddenBy, hms, htag, hname]
  have hmem : ∀ x, some x ∈ merged.map entryName ↔
      some x ∈ below.map entryName ∨ some x ∈ ms.map Member.name? := by
    intro x
    rw [h.keys, hkeys, mem_overlayKeys]
  rw [List.map_append]
  rcases mergeMember_cases origin merged m with ⟨heq, hfree⟩ | ⟨x, pre, c, post, hname, rfl, hpre, hc, heq⟩
  · rw [heq]
    refine h.concat ?_
    change m.name? = none ∨ m.name? ∉ below.map entryName ∨ m.name? ∈ (ms.map (origin, ·)).map entryName
    rw [hkeys]
    cases hm : m.name? with
    | none => exact .inl rfl
    | some x =>
      refine .inr (Classical.or_iff_not_imp_right.2 fun hms hx => ?_)
      obtain ⟨e, he, hex⟩ := List.mem_map.1 ((hmem x).2 (.inl hx))
      simpa [hover x e he hex, hms] using hfree x hm e he
  · rw [heq]
    have hcx : entryName c = some x := by
      simp only [overriddenBy, Bool.and_eq_true, beq_iff_eq] at hc
      exact hc.2
    have hms : some x ∉ ms.map Member.name? := by
      simpa [hover x c (by simp) hcx] using hc
    have hat : ∀ e ∈ pre ++ c :: post, (!overriddenBy origin x e) = (entryName e != some x) := by
      intro e he
      by_cases hex : entryName e = some x
      · simp [hover x e he hex, hms, hex]
      · have : (e.2.name? == some x) = false := beq_eq_false_iff_ne.2 hex
        simp [overriddenBy, this, hex]
    have hpost : (post.filter fun e => !overriddenBy origin x e) =
        post.filter (entryName · != some x) :=
      List.filter_congr fun e he => hat e (by simp [he])
    rw [hpost]
    refine h.meet hname hcx (fun hx => ?_) (((hmem x).1 ?_).resolve_right hms) (by rwa [hkeys])
    · obtain ⟨e, he, hex⟩ := List.mem_map.1 hx
      have := hat e (by simp [he])
      simp [hpre e he, hex] at this
    · simp [hcx]

theorem foldl_mergeMember (origin : Nat) (hbelow : ∀ e ∈ below, e.1 ≠ origin) (ms : List Member) :
    Overlays entryName below (ms.map (origin, ·)) (ms.foldl (mergeMember origin) below) := by
  induction ms using List.reverseRecOn with
  | nil => exact .nil_right below
  | append_singleton ms m ih =>
    rw [List.foldl_append]
    exact ih.mergeMember hbelow m

def overlay (ms ns : List Member) : List Member :=
  (ns.foldl (mergeMember 1) (ms.map (0, ·))).map (·.2)

theorem overlay_overlays (ms ns : List Member) : Overlays Member.name? ms ns (overlay ms ns) := by
  have hbelow : ∀ e ∈ ms.map ((0 : Nat), ·), e.1 ≠ 1 := by simp
  have h : Overlays Member.name? _ _ (overlay ms ns) :=
    (foldl_mergeMember 1 hbelow ns).map (·.2) fun _ => rfl
  simpa only [List.map_map, Function.comp_def, List.map_id_fun', id] using h

theorem mergeObjects_eq (h : ∀ e ∈ merged, e.1 < origin) (objects : List (Comments × List Member)) :
    (mergeObjects origin merged objects).map (·.2) =
      (objects.map (·.2)).foldl overlay (merged.map (·.2)) := by
  induction objects generalizing origin merged with
  | nil => rfl
  | cons o os ih =>
    obtain ⟨c, ms⟩ := o
    have hover := foldl_mergeMember origin (fun e he => Nat.ne_of_lt (h e he)) ms
    have hnext : ∀ e ∈ ms.foldl (mergeMember origin) merged, e.1 < origin + 1 := by
      intro e he
      rcases hover.mem he with he | he
      · exact Nat.lt_succ_of_lt (h e he)
      · obtain ⟨m, -, rfl⟩ := List.mem_map.1 he
        exact Nat.lt_succ_self origin
    have hsnd : Overlays Member.name? _ _ ((ms.foldl (mergeMember origin) merged).map (·.2)) :=
      hover.map (·.2) fun _ => rfl
    simp only [List.map_map, Function.comp_def, List.map_id_fun', id] at hsnd
    rw [mergeObjects, ih hnext, hsnd.unique (overlay_overlays _ ms)]
    rfl

/-- The members of several objects as those of one. -/
def overlayAll (objects : List (List Member)) : List Member :=
  objects.foldl overlay []

theorem mergedObject_eq (objects : List (Comments × List Member)) :
    mergedObject objects =
      .object { comments := (objects.map (·.1)).flatten } (overlayAll (objects.map (·.2))) := by
  rw [mergedObject, mergeObjects_eq (by simp), overlayAll]
  rfl

theorem overlayAll_concat (objects : List (List Member)) (ms : List Member) :
    overlayAll (objects ++ [ms]) = overlay (overlayAll objects) ms := by
  simp [overlayAll]

/-- The members `ms` are those of several objects, merged. -/
structure Merges (objects : List (List Member)) (ms : List Member) : Prop where
  /-- The members of a name are those of the last object that has the name. -/
  named : ∀ x, group Member.name? (some x) ms =
    group Member.name? (some x) ((objects.reverse.find? (·.any (·.name? == some x))).getD [])
  /-- Names stand in the order in which they first appear in the objects. -/
  order : firsts (ms.filterMap Member.name?) = firsts (objects.flatten.filterMap Member.name?)
  /-- Members without a name are all there, in order. -/
  unnamed : group Member.name? none ms = group Member.name? none objects.flatten

theorem filterMap_name?_eq (ms : List Member) :
    ms.filterMap Member.name? = (ms.map Member.name?).filterMap id := by
  rw [List.filterMap_map]
  rfl

theorem overlayAll_merges (objects : List (List Member)) : Merges objects (overlayAll objects) := by
  induction objects using List.reverseRecOn with
  | nil => exact ⟨fun _ => rfl, rfl, rfl⟩
  | append_singleton os ms ih =>
    have hover := overlay_overlays (overlayAll os) ms
    rw [overlayAll_concat]
    refine ⟨fun x => ?_, ?_, ?_⟩
    · have hany : ms.any (·.name? == some x) = decide (some x ∈ ms.map Member.name?) := by
        rw [Bool.eq_iff_iff, List.any_eq_true, decide_eq_true_iff, List.mem_map]
        simp only [beq_iff_eq]
      rw [hover.named, ih.named, List.reverse_append, List.reverse_singleton, List.singleton_append,
        List.find?_cons, hany]
      by_cases hx : some x ∈ ms.map Member.name? <;> simp only [hx, decide_true, decide_false, if_true,
        if_false, Option.getD_some]
    · have horder := ih.order
      rw [← distinct_eq_firsts, ← distinct_eq_firsts] at horder ⊢
      rw [List.flatten_append, List.flatten_singleton, List.filterMap_append, filterMap_name?_eq,
        hover.keys, distinct_names_overlayKeys, ← filterMap_name?_eq, ← filterMap_name?_eq,
        ← List.nil_append ((overlayAll os).filterMap _), ← distinct_append_distinct, horder,
        distinct_append_distinct, List.nil_append]
    · rw [hover.unnamed, ih.unnamed, List.flatten_append, List.flatten_singleton, group_append]

/-- The merged object takes the place of the first of the objects, and the others go. -/
theorem replaceObjects_eq (merged : Ty) {ts : List Ty} (h : ts.filterMap Ty.plainObject? ≠ []) :
    ∃ before o after, ts = before ++ o :: after ∧ (∀ t ∈ before, t.isPlainObject = false) ∧
      o.isPlainObject = true ∧
      replaceObjects merged ts = before ++ merged :: after.filter fun t => !t.isPlainObject := by
  induction ts with
  | nil => exact absurd rfl h
  | cons t ts ih =>
    cases ht : t.isPlainObject with
    | true => exact ⟨[], t, ts, rfl, by simp, ht, by simp [replaceObjects, ht]⟩
    | false =>
      have hnone : t.plainObject? = none := by simpa [Ty.isPlainObject] using ht
      rw [List.filterMap_cons_none hnone] at h
      obtain ⟨before, o, after, rfl, hbef, ho, heq⟩ := ih h
      refine ⟨t :: before, o, after, rfl, List.forall_mem_cons.2 ⟨ht, hbef⟩, ho, ?_⟩
      simp [replaceObjects, ht, heq]

/-- What the intersection of several written-out objects becomes. The operands are the leaves without
repetition; one object that merges all of these stands where the first of them stood, and all other
operands are left as they are. -/
theorem simplifyIntersection_merges (ts : List Ty) :
    ∃ leaves, (∀ ls, Unnested Ty.intersectParts? ts ls ↔ ls = leaves) ∧
      ∀ objects, (firsts leaves).filterMap Ty.plainObject? = objects → 2 ≤ objects.length →
        ∃ before o after ms,
          firsts leaves = before ++ o :: after ∧
          (∀ t ∈ before, t.isPlainObject = false) ∧ o.isPlainObject = true ∧
          Merges (objects.map (·.2)) ms ∧
          ∀ operands, operands = before ++
              .object { comments := (objects.map (·.1)).flatten } ms ::
                (after.filter fun t => !t.isPlainObject) →
            (∀ t, operands = [t] → simplifyIntersection ts = t) ∧
            (2 ≤ operands.length → simplifyIntersection ts = .ofIntersect operands) := by
  refine ⟨Ty.intersectLeavesList ts, fun _ => unnested_intersectLeavesList, ?_⟩
  rintro objects hobjects hseveral
  rw [← distinct_eq_firsts] at hobjects ⊢
  have hne : (distinct (Ty.intersectLeavesList ts)).filterMap Ty.plainObject? ≠ [] := by
    intro hnil
    rw [← hobjects, hnil] at hseveral
    simp at hseveral
  obtain ⟨before, o, after, heq, hbefore, ho, hreplace⟩ :=
    replaceObjects_eq (mergedObject objects) hne
  refine ⟨before, o, after, overlayAll (objects.map (·.2)), heq, hbefore, ho, overlayAll_merges _, ?_⟩
  rintro operands hoperands
  have hmeet : simplifyIntersection ts = Ty.meetDistinct operands := by
    rw [simplifyIntersection, mergePlainObjects_eq (by rw [hobjects]; omega), hobjects, hreplace,
      mergedObject_eq, hoperands]
  rw [hmeet]
  refine ⟨fun t h => by rw [h]; rfl, fun h => ?_⟩
  rcases operands with _ | ⟨t, _ | ⟨u, us⟩⟩
  · simp at h
  · simp at h
  · rfl

/-- `{ f: number; a: string; f: boolean } & number & ({ [k: string]: any; f: string })`: the merged
object stands first. -/
theorem simplifyIntersection_merges_overloads :
    let below := [Member.ofType "f" .number, .ofType "a" .string, .ofType "f" .boolean]
    let above := [Member.ofDict "k" .string .any, .ofType "f" .string]
    let ts := [Ty.ofMembers below, .number, .intersect 1 [.ofMembers above]]
    Unnested Ty.intersectParts? ts [.ofMembers below, .number, .ofMembers above] ∧
    (firsts [Ty.ofMembers below, .number, .ofMembers above]).filterMap Ty.plainObject? =
      [([], below), ([], above)] ∧
    ∃ ms, Merges [below, above] ms ∧ simplifyIntersection ts = .ofIntersect [.ofMembers ms, .number] := by
  intro below above ts
  have hun : Unnested Ty.intersectParts? ts [.ofMembers below, .number, .ofMembers above] :=
    unnested_intersectLeavesList.2 rfl
  have hfirsts : firsts [Ty.ofMembers below, .number, .ofMembers above] =
      [.ofMembers below, .number, .ofMembers above] := by
    have hne : (Ty.ofMembers below == .ofMembers above) = false := by decide +kernel
    rw [← distinct_eq_firsts]
    exact distinct_eq_self (by simp [hne]; decide +kernel)
  have hobjects : (firsts [Ty.ofMembers below, .number, .ofMembers above]).filterMap Ty.plainObject? =
      [([], below), ([], above)] := by
    rw [hfirsts]
    rfl
  refine ⟨hun, hobjects, ?_⟩
  obtain ⟨leaves, hleaves, h⟩ := simplifyIntersection_merges ts
  rw [← (hleaves _).1 hun] at h
  obtain ⟨before, o, after, ms, heq, hbefore, -, hms, hoperands⟩ := h _ hobjects (by decide)
  rw [hfirsts] at heq
  -- The first operand is an object, so nothing stands before the merged one.
  cases before with
  | cons t before =>
    obtain ⟨rfl, -⟩ := List.cons.inj heq
    cases hbefore _ (.head _)
  | nil =>
    obtain ⟨rfl, rfl⟩ := List.cons.inj heq
    exact ⟨ms, hms, (hoperands _ rfl).2 (Nat.le_refl 2)⟩

end Ambient
