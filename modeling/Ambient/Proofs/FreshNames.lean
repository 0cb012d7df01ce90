import Ambient.Proofs.Answered
import Ambient.Proofs.Declared
import Ambient.Proofs.Placement
import Ambient.Proofs.Rest
import Mathlib.Data.List.Nodup
import Mathlib.Data.List.Perm.Subperm

/-!
# There is always a free name

The name for an extracted interface is looked for among a stem followed by 1, 2, 3 and so on, up to a
bound. The bound is never reached: there are more of these names than names that are taken.

* A name that means something at a scope is one of finitely many (`Scope.mem_namesInReach`), no more than
  the weights of the declarations around say (`Scope.length_namesInReach_le`).
* Lower case leaves a number at the end alone (`Text.toLower_number`), so different numbers give names
  that differ in more than case.

Main statement: a new name is found in the middle of a step, whatever waits (`newName_answered`).
-/

namespace Ambient

/-! ## Numbers in lower case -/

variable {c : Char} {f : Found} {xs : List Ident}

namespace Text

theorem toNat_of_isDigit (h : c.isDigit = true) : 48 ≤ c.toNat ∧ c.toNat ≤ 57 := by
  simp only [Char.isDigit, Bool.and_eq_true, decide_eq_true_eq, UInt32.le_iff_toNat_le, ge_iff_le] at h
  exact h

theorem lower_digit (h : c.isDigit = true) : lower c = [c] := by
  have hc := toNat_of_isDigit h
  have hlower : c.toLower = c := by
    refine dif_neg fun hupper => ?_
    have hA : 65 ≤ c.toNat := UInt32.le_iff_toNat_le.1 hupper.1
    omega
  rw [lower, if_pos (by omega), hlower]

theorem digit_uncased (h : c.isDigit = true) : isCased c = false ∧ isCaseIgnorable c = false := by
  have hc := toNat_of_isDigit h
  have hall : ∀ n ∈ List.range' 48 10, casedRanges.has n = false ∧ caseIgnorableRanges.has n = false := by
    decide +kernel
  exact hall c.toNat (List.mem_range'_1.2 ⟨hc.1, by omega⟩)

section
variable {ds : List Char} (hds : ∀ c ∈ ds, c.isDigit = true)
include hds

theorem startsCased_append_digits (cs : List Char) : startsCased (cs ++ ds) = startsCased cs := by
  have hdig : startsCased ds = false := by
    cases ds with
    | nil => rfl
    | cons d ds =>
      obtain ⟨hcased, hign⟩ := digit_uncased (hds d (.head _))
      simp [startsCased, hign, hcased]
  rw [startsCased, startsCased, List.dropWhile_append]
  cases cs.dropWhile isCaseIgnorable with
  | nil => exact hdig
  | cons c cs => rfl

theorem lowerAfter_digits (before : List Char) : lowerAfter before ds = ds := by
  induction ds generalizing before with
  | nil => rfl
  | cons d ds ih =>
    obtain ⟨hd, hds⟩ := List.forall_mem_cons.1 hds
    have hsigma : d ≠ 'Σ' := by
      rintro rfl
      exact absurd hd (by decide)
    rw [lowerAfter, if_neg hsigma, lower_digit hd, ih hds]
    rfl

theorem lowerAfter_append_digits (before cs : List Char) :
    lowerAfter before (cs ++ ds) = lowerAfter before cs ++ ds := by
  induction cs generalizing before with
  | nil => exact lowerAfter_digits hds before
  | cons c cs ih =>
    simp only [List.cons_append, lowerAfter, startsCased_append_digits hds, ih, List.append_assoc]

end

theorem toLower_number (s : String) (n : Nat) : toLower (s ++ toString n) = toLower s ++ toString n := by
  have hdig : ∀ c ∈ (toString n).toList, c.isDigit = true := by
    intro c hc
    rw [Nat.toString_eq_repr, Nat.toList_repr] at hc
    exact Nat.isDigit_of_mem_toDigits (by decide) (by decide) hc
  rw [toLower, String.toList_append, lowerAfter_append_digits hdig, String.ofList_append,
    String.ofList_toList, toLower]

end Text

theorem append_number_injective (s : String) : Function.Injective fun n : Nat => s ++ toString n := by
  intro m n h
  have hlists : s.toList ++ (toString m).toList = s.toList ++ (toString n).toList := by
    rw [← String.toList_append, ← String.toList_append]
    exact congrArg String.toList h
  have hdig : Nat.toDigits 10 m = Nat.toDigits 10 n := by
    simpa only [Nat.toString_eq_repr, Nat.toList_repr] using List.append_cancel_left hlists
  have hread := congrArg (Nat.ofDigitChars 10 · 0) hdig
  simpa only [Nat.ofDigitChars_toDigits (b := 10) (by decide) (by decide)] using hread

/-! ## Names in reach -/

mutual

/-- All names that a declaration and those in it bring in. -/
def Decl.introduces : Decl → List Ident
  | .space h ms => h.name :: Decl.introducesList ms
  | .module h ms => h.name :: Decl.introducesList ms
  | .augmentation h ms => h.name :: Decl.introducesList ms
  | .global _ ms => Decl.introducesList ms
  | .imports i => i.binds
  | .exports _ e => e.introduces
  | d => d.name?.toList

/-- All names that what an export exports brings in where it stands. -/
def Exportee.introduces : Exportee → List Ident
  | .inline d => d.introduces
  | _ => []

def Decl.introducesList : List Decl → List Ident
  | [] => []
  | d :: ds => d.introduces ++ Decl.introducesList ds

end

theorem Imported.length_binds_le (x : Imported) : x.binds.length ≤ x.names := by
  cases x with
  | name x => exact Nat.le_refl 1
  | star x => cases x <;> simp [binds, names]
  | destructured xs => simp [binds, names]

mutual

theorem Decl.length_introduces_le (d : Decl) : d.introduces.length ≤ d.weight := by
  cases d with
  | space h ms | module h ms | augmentation h ms =>
    have := Decl.length_introducesList_le ms
    simp only [Decl.introduces, Decl.weight, List.length_cons]
    omega
  | global h ms => exact Nat.le_trans (Decl.length_introducesList_le ms) (Nat.le_add_left _ _)
  | imports i =>
    have hbinds : i.binds.length ≤ total Imported.names i.imported := by
      rw [ImportDecl.binds, length_flatMap_eq_total]
      exact total_le fun x _ => x.length_binds_le
    exact Nat.le_trans hbinds (Nat.le_add_left _ _)
  | exports h e => exact Nat.le_trans e.length_introduces_le (Nat.le_add_left _ _)
  | exportAs e => exact Nat.zero_le _
  | cls c => exact Nat.le_trans (by decide : 1 ≤ 2) (Nat.le_add_right _ _)
  | iface i | typeAlias a => exact Nat.le_add_right _ _
  | _ => exact Nat.le_refl 1

theorem Exportee.length_introduces_le (e : Exportee) : e.introduces.length ≤ e.weight := by
  cases e with
  | inline d => exact d.length_introduces_le
  | _ => exact Nat.zero_le _

theorem Decl.length_introducesList_le (ds : List Decl) : (Decl.introducesList ds).length ≤ Decl.weightList ds := by
  match ds with
  | [] => exact Nat.le_refl 0
  | d :: ds =>
    have h₁ := d.length_introduces_le
    have h₂ := Decl.length_introducesList_le ds
    simp only [Decl.introducesList, Decl.weightList, List.length_append]
    omega

end

theorem Decl.introduces_subset {d : Decl} {ds : List Decl} (h : d ∈ ds) : d.introduces ⊆ Decl.introducesList ds := by
  induction ds with
  | nil => cases h
  | cons e es ih =>
    rw [introducesList]
    rcases List.mem_cons.1 h with rfl | h
    · exact List.subset_append_left _ _
    · exact fun _ hx => List.mem_append_right _ (ih h hx)

namespace Scope

/-- The names that the containers around and the libraries bring in. -/
def namesInReach (s : Scope) : List Ident :=
  s.outwards.flatMap (fun c => Decl.introducesList c.members) ++
    s.root.deps.libs.flatMap fun lib => lib.name :: Decl.introducesList lib.file.members

theorem length_namesInReach_le (s : Scope) : s.namesInReach.length ≤ s.reach := by
  have hopen := Start.total_weight_openings_le { scope := s }
  have hout : total (fun c => (Decl.introducesList c.members).length) s.outwards ≤
      total (fun c => Decl.weightList c.members) s.outwards :=
    total_le fun c _ => Decl.length_introducesList_le c.members
  have hlibs : total (fun lib => (Decl.introducesList lib.file.members).length + 1) s.root.deps.libs ≤
      total (fun lib => lib.module.weight + Decl.weightList lib.file.members) s.root.deps.libs +
        2 * s.root.deps.libs.length := by
    induction s.root.deps.libs with
    | nil => exact Nat.le_refl 0
    | cons lib libs ih =>
      have := Decl.length_introducesList_le lib.file.members
      simp only [total, List.length_cons] at ih ⊢
      omega
  simp only [Start.openings, Start.reach, total_append, total_flatMap, total, total_weight_members,
    Decl.weightList, List.map_nil] at hopen
  simp only [namesInReach, List.length_append, length_flatMap_eq_total, List.length_cons]
  omega

theorem introduces_subset_namesInReach {s c : Scope} (hc : c ∈ s.outwards) :
    Decl.introducesList c.members ⊆ s.namesInReach :=
  fun _ hx => List.mem_append_left _ (List.mem_flatMap.2 ⟨c, hc, hx⟩)

theorem library_subset_namesInReach {s : Scope} {lib : Dependency} (h : lib ∈ s.root.deps.libs) :
    lib.name :: Decl.introducesList lib.file.members ⊆ s.namesInReach :=
  fun _ hx => List.mem_append_right _ (List.mem_flatMap.2 ⟨lib, h, hx⟩)

end Scope

/-! ## What is found has a name in reach -/

/-- The search finds something only if the name is one of these. -/
abbrev FindsOnly (names : List Ident) (x : Ident) (p : Search (List Found)) : Prop :=
  p.Ensures importRealm.asked importRealm.given fun fs => ∀ f ∈ fs, x ∈ names

section
variable {x : Ident}

theorem FindsOnly.subset {ys : List Ident} {p : Search (List Found)} (h : FindsOnly xs x p)
    (hxs : xs ⊆ ys) : FindsOnly ys x p :=
  h.mono (fun _ h => h) fun _ hfs f hf => hxs (hfs f hf)

theorem Decl.introduces_of_localName? {d : Decl} (h : d.localName? = some x) : x ∈ d.introduces := by
  have hown : ∀ {d : Decl}, d.ownName? = some x → x ∈ d.introduces := by
    intro d h
    cases d <;> cases h <;> exact .head _
  cases d with
  | exports _ e =>
    cases e with
    | inline d => exact hown (d := d) h
    | _ => cases h
  | _ => exact hown h

mutual

theorem findsOnly_findIn (s : Scope) (d : Decl) : FindsOnly d.introduces x (findIn x s d) := by
  cases d with
  | global h ms => exact findsOnly_findInList _ ms
  | imports i =>
    refine .bind (.about trivial fun _ h => h) fun bs hbs => .done fun f hf => ?_
    obtain ⟨b, hb, rfl⟩ := List.mem_map.1 hf
    obtain ⟨hb, hname⟩ := List.mem_filter.1 hb
    exact eq_of_beq hname ▸ hbs b hb
  | _ =>
    rw [findIn_eq x s]
    · refine .done fun f hf => ?_
      split at hf
      · exact Decl.introduces_of_localName? (by assumption)
      · cases hf
    · nofun
    · nofun

theorem findsOnly_findInList (s : Scope) (ds : List Decl) :
    FindsOnly (Decl.introducesList ds) x (findInList x s ds) := by
  match ds with
  | [] => exact .nil
  | d :: ds =>
    refine (findsOnly_findIn s d).bind fun fs hfs => (findsOnly_findInList s ds).bind fun gs hgs => ?_
    refine .done fun f hf => ?_
    rcases List.mem_append.1 hf with hf | hf
    · exact List.mem_append_left _ (hfs f hf)
    · exact List.mem_append_right _ (hgs f hf)

end

theorem findsOnly_lookupInside (picker : Picker) (s : Scope) :
    FindsOnly (Decl.introducesList s.members) x (lookupInside picker x [] s) :=
  (findsOnly_findInList s s.members).bind fun _ hfs => .done fun f hf => hfs f (List.mem_filter.1 hf).1

variable {s : Scope}

theorem introduces_of_modulesNamed (h : f ∈ s.modulesNamed x) : x ∈ Decl.introducesList s.members := by
  obtain ⟨d, hd, he⟩ := List.mem_filterMap.1 h
  split at he
  · split at he
    · rename_i hx
      exact Decl.introduces_subset hd (hx ▸ (.head _))
    · cases he
  · cases he

theorem namesInReach_of_dependencyScopes {c : Scope} (h : c ∈ s.dependencyScopes) :
    Decl.introducesList c.members ⊆ s.namesInReach := by
  obtain ⟨y, -, hy⟩ := List.mem_filterMap.1 h
  obtain ⟨lib, hlib, rfl⟩ := (Scope.dependencyScope?_eq rfl).1 hy
  have hsub := Scope.library_subset_namesInReach (List.mem_of_find?_eq_some hlib)
  exact fun _ hx => hsub (.tail _ hx)

theorem mem_namesInReach_of_moduleScopes (h : f ∈ s.moduleScopes x) : x ∈ s.namesInReach := by
  rcases List.mem_append.1 h with h | h
  · obtain ⟨c, hc, hf⟩ := List.mem_flatMap.1 h
    have hx := introduces_of_modulesNamed hf
    rcases List.mem_append.1 hc with hc | hc
    · have hout : c ∈ s.outwards := List.mem_of_find?_eq_some (Option.mem_toList.1 hc)
      exact Scope.introduces_subset_namesInReach hout hx
    · exact namesInReach_of_dependencyScopes hc hx
  · obtain ⟨lib, hlib, -⟩ := List.mem_flatMap.1 h
    have hfind : s.root.deps.find? x = some lib := Option.mem_toList.1 hlib
    obtain rfl := Dependencies.find?_name hfind
    exact Scope.library_subset_namesInReach (List.mem_of_find?_eq_some hfind) (.head _)

theorem namesInReach_of_augmentations (h : f ∈ s.augmentations) :
    Decl.introducesList f.inner.members ⊆ s.namesInReach := by
  obtain ⟨file, hfile, hf⟩ := List.mem_flatMap.1 h
  have hout : file ∈ s.outwards := List.mem_of_find?_eq_some (Option.mem_toList.1 hfile)
  refine List.Subset.trans ?_ (Scope.introduces_subset_namesInReach hout)
  obtain ⟨d, hd, hf⟩ := List.mem_flatMap.1 hf
  refine List.Subset.trans ?_ (Decl.introduces_subset hd)
  split at hf
  · rw [List.mem_singleton] at hf
    subst hf
    exact List.subset_cons_self _ _
  · obtain ⟨e, he, hf⟩ := List.mem_filterMap.1 hf
    split at hf
    · cases hf
      refine List.Subset.trans ?_ (List.subset_cons_self _ _)
      exact List.Subset.trans (List.subset_cons_self _ _) (Decl.introduces_subset he)
    · cases hf
  · cases hf

theorem findsOnly_lookupThrough (picker : Picker) (s : Scope) :
    FindsOnly s.namesInReach x (lookupThrough picker s x []) := by
  refine .orElse (.firstNonempty (List.forall_mem_nil _) fun c hc => ?_) ?_
  · exact (findsOnly_lookupInside picker c).subset
      (Scope.introduces_subset_namesInReach (List.mem_filter.1 hc).1)
  refine .orElse (.concatMapM fun f hf => ?_) ?_
  · exact .done fun _ _ => mem_namesInReach_of_moduleScopes hf
  refine .orElse (.concatMapM fun f hf => ?_) (.concatMapM fun c hc => ?_)
  · exact (findsOnly_lookupInside picker f.inner).subset (namesInReach_of_augmentations hf)
  · exact (findsOnly_lookupInside picker c).subset (namesInReach_of_dependencyScopes hc)

/-- **A name that means something is in reach.** -/
theorem Scope.mem_namesInReach (h : s.meaning [x] ≠ []) : x ∈ s.namesInReach := by
  cases hs : s.isSettled [x] with
  | true => exact absurd (meaning_of_settled hs) h
  | false =>
    obtain ⟨f, fs, hfs⟩ := List.exists_cons_of_ne_nil h
    have hfinds := Scope.denotes_of_ensures hs (findsOnly_lookupThrough .all s)
    exact hfinds f (show f ∈ s.meaning [x] from hfs ▸ (.head _))

end

/-! ## Names that are taken -/

/-- The names of all interfaces that wait, in lower case. -/
def PendingByScope.folded (pending : PendingByScope) : List String :=
  pending.flatMap fun p => p.2.map fun i => Text.toLower i.name

theorem PendingByScope.length_folded (pending : PendingByScope) :
    pending.folded.length = total (fun p => p.2.length) pending := by
  simp only [folded, length_flatMap_eq_total, List.length_map]

theorem PendingByScope.mem_folded {pending : PendingByScope} {cs : List Scope} {x : Ident}
    (h : pending.isTaken cs x = true) : Text.toLower x ∈ pending.folded := by
  obtain ⟨c, -, hc⟩ := List.any_eq_true.1 h
  obtain ⟨i, hi, hname⟩ := List.any_eq_true.1 hc
  unfold waiting at hi
  cases hlook : pending.lookup c.key with
  | none =>
    rw [hlook] at hi
    cases hi
  | some is =>
    rw [hlook] at hi
    have hmem : (c.key, is) ∈ pending := mem_of_lookup hlook
    exact List.mem_flatMap.2 ⟨_, hmem, List.mem_map.2 ⟨i, hi, eq_of_beq hname⟩⟩

/-- Numbers that give different elements of a list are no more than these. -/
theorem length_filter_range_le {α : Type} {g : Nat → α} (hg : Function.Injective g) {xs : List α}
    {p : Nat → Bool} {limit : Nat} (h : ∀ k < limit, p k = true → g k ∈ xs) :
    ((List.range limit).filter p).length ≤ xs.length := by
  have hnodup : (((List.range limit).filter p).map g).Nodup :=
    (List.nodup_range.filter _).map hg
  have hsub : ((List.range limit).filter p).map g ⊆ xs := by
    intro x hx
    obtain ⟨k, hk, rfl⟩ := List.mem_map.1 hx
    obtain ⟨hk, hp⟩ := List.mem_filter.1 hk
    exact h k (List.mem_range.1 hk) hp
  simpa using (hnodup.subperm hsub).length_le

/-- **There are more numbers than names that are taken.** -/
theorem exists_free_number (stem : String) (first limit : Nat) {folded : List String} {names : List Ident}
    (h : folded.length + names.length < limit) :
    ∃ k < limit, Text.toLower (stem ++ toString (first + k)) ∉ folded ∧
      stem ++ toString (first + k) ∉ names := by
  by_contra hall
  simp only [not_exists, not_and, not_not] at hall
  have hinj : ∀ s : String, Function.Injective fun k => s ++ toString (first + k) := by
    intro s k l hkl
    have := append_number_injective s hkl
    omega
  -- The numbers split into those whose name waits and those whose name is bound.
  let waits (k : Nat) : Bool := Text.toLower (stem ++ toString (first + k)) ∈ folded
  have hwait : ((List.range limit).filter waits).length ≤ folded.length := by
    refine length_filter_range_le (hinj (Text.toLower stem)) fun k _ hk => ?_
    rw [← Text.toLower_number]
    exact of_decide_eq_true hk
  have hnamed : ((List.range limit).filter fun k => !waits k).length ≤ names.length :=
    length_filter_range_le (hinj stem) fun k hk hfree => hall k hk (by simpa [waits] using hfree)
  have hsplit := List.length_eq_length_filter_add (l := List.range limit) waits
  rw [List.length_range] at hsplit
  omega

/-! ## A new name -/

section
variable {L : Logic Resolve} {isFree : Ident → Resolve Bool} {Taken : Ident → Prop}
  (hfree : ∀ w x, L.ends w (isFree x) fun b _ => b = false → Taken x)
include hfree

theorem firstFree_ends (xs : List Ident) : L.Ends (firstFree isFree xs) := by
  induction xs with
  | nil => exact .pure
  | cons x xs ih =>
    refine .bind (.of_ends fun w => hfree w x) fun b => ?_
    cases b with
    | true => exact .pure
    | false => exact ih

theorem firstFreeNumbered_ends (w : L.World) (stem : String) (first limit : Nat) :
    L.ends w (firstFreeNumbered isFree stem first limit) fun r _ =>
      r = none → ∀ k < limit, Taken (stem ++ toString (first + k)) := by
  induction limit generalizing w first with
  | zero => exact .pure fun _ k hk => absurd hk (Nat.not_lt_zero k)
  | succ limit ih =>
    refine .bind (hfree w _) fun b w' _ hb => ?_
    cases b with
    | true => exact .pure fun h => nomatch h
    | false =>
      refine L.imp (ih w' (first + 1)) fun r _ hr hnone k hk => ?_
      cases k with
      | zero => exact hb rfl
      | succ k =>
        have hk := hr hnone k (Nat.lt_of_succ_lt_succ hk)
        rwa [Nat.add_right_comm] at hk

theorem deriveName_ends (w : L.World) {limit : Nat}
    (hlimit : ∀ stem, ∃ k < limit, ¬ Taken (stem ++ toString (1 + k))) (stem : String)
    (ms : List Member) :
    L.ends w (deriveName isFree limit stem ms) fun r _ => r.isSome = true := by
  refine .bind (firstFree_ends hfree _ w) fun r w' _ _ => ?_
  cases r with
  | some x => exact .pure rfl
  | none =>
    refine L.imp (firstFreeNumbered_ends hfree w' _ 1 limit) fun r _ hr => ?_
    cases r with
    | some x => rfl
    | none =>
      obtain ⟨k, hk, hnot⟩ := hlimit ((candidates stem ms).getLast?.getD stem)
      exact absurd (hr rfl k hk) hnot

end

section
variable {T : Territory} (hT : T.Numbered) (hall : T.AllNames) {s : Scope} (hs : T.scope s) {w : Unit}
include hT hall hs

theorem lookup_answered (q : QIdent) :
    (asking T.realm).ends w (Resolve.afresh (s.lookupWith .all q [])) fun fs _ => fs = s.meaning q := by
  intro σ hσ
  obtain ⟨σ', hrun, hσ'⟩ := lookup_meaning hT hs (hall s q hs) hσ
  exact ⟨_, σ', hrun, hσ', rfl⟩

theorem isVisible_answered (x : Ident) :
    (asking T.realm).ends w (isVisible s x) fun b _ => b = true → x ∈ s.namesInReach := by
  refine (asking T.realm).bind (lookup_answered hT hall hs [x]) fun fs _ _ hfs => ?_
  refine (asking T.realm).pure fun hb => Scope.mem_namesInReach ?_
  subst hfs
  simpa using hb

/-- **A new name is found**, whatever waits. -/
theorem newName_answered (stem : String) (pending : PendingByScope) (comments : Comments)
    (ms : List Member) :
    (asking T.realm).Ends (newName stem pending s comments ms) := by
  let L := asking T.realm
  let limit := total (fun p => p.2.length) pending + s.reach + 1
  let isFree (x : Ident) : Resolve Bool := do
    if pending.isTaken s.containers x then return false
    return !(← isVisible s x)
  have hfree : ∀ w x, L.ends w (isFree x) fun b _ =>
      b = false → Text.toLower x ∈ pending.folded ∨ x ∈ s.namesInReach := by
    intro w x
    show L.ends w (if pending.isTaken s.containers x then _ else _) _
    split
    · rename_i htaken
      exact .pure fun _ => .inl (PendingByScope.mem_folded htaken)
    · refine .bind (isVisible_answered hT hall hs x) fun b _ _ hb => .pure fun h => .inr (hb ?_)
      simpa using h
  have hlimit : ∀ stem, ∃ k < limit, ¬ (Text.toLower (stem ++ toString (1 + k)) ∈ pending.folded ∨
      stem ++ toString (1 + k) ∈ s.namesInReach) := by
    intro stem
    have hlt : pending.folded.length + s.namesInReach.length < limit := by
      have hreach := s.length_namesInReach_le
      have hfold := pending.length_folded
      omega
    obtain ⟨k, hk, hnot⟩ := exists_free_number stem 1 limit hlt
    exact ⟨k, hk, fun h => h.elim hnot.1 hnot.2⟩
  have hderive : ∀ stem (k : Option Ident → Resolve Ident), (∀ x, L.Ends (k (some x))) →
      L.Ends (deriveName isFree limit stem ms >>= k) := by
    intro stem k hk w
    refine .bind (deriveName_ends hfree w hlimit stem ms) fun r w' _ hr => ?_
    cases r with
    | some x => exact hk x w'
    | none => cases hr
  unfold newName
  cases comments.nameHint? with
  | none => exact hderive stem _ fun _ => .pure
  | some hint =>
    refine .bind (.of_ends fun w => hfree w hint) fun b => ?_
    cases b with
    | true => exact .pure
    | false => exact hderive hint _ fun _ => .pure

end

end Ambient
