import Ambient.Proofs.Bounded
import Ambient.Proofs.Territory

/-!
# The territory around a scope

From a scope a search can get to the scopes around it, to the libraries, and to what is declared
below these. All of that is a finite tree (`placesBelow`, `Start.places`), its scopes and steps
are finitely many (`Start.pairs`), no more than the weights of the declarations say
(`length_scopes_le`, `length_steps_le`), and searches do not leave it (`Start.territory`).
-/

namespace Ambient

/-! ## Sums over lists -/

section
variable {α β : Type} {f g : α → Nat}

theorem total_append (f : α → Nat) (as bs : List α) : total f (as ++ bs) = total f as + total f bs := by
  induction as with
  | nil => simp [total]
  | cons a as ih =>
    simp only [List.cons_append, total, ih]
    omega

theorem total_map (f : β → Nat) (g : α → β) (as : List α) :
    total f (as.map g) = total (fun a => f (g a)) as := by
  induction as with
  | nil => rfl
  | cons a as ih => simp only [List.map_cons, total, ih]

theorem total_flatMap (f : β → Nat) (g : α → List β) (as : List α) :
    total f (as.flatMap g) = total (fun a => total f (g a)) as := by
  induction as with
  | nil => rfl
  | cons a as ih => simp only [List.flatMap_cons, total_append, total, ih]

theorem length_flatMap_eq_total (g : α → List β) (as : List α) :
    (as.flatMap g).length = total (fun a => (g a).length) as := by
  induction as with
  | nil => rfl
  | cons a as ih => simp only [List.flatMap_cons, List.length_append, total, ih]

theorem total_const (n : Nat) (as : List α) : total (fun _ => n) as = as.length * n := by
  induction as with
  | nil => simp [total]
  | cons a as ih => rw [total, ih, List.length_cons, Nat.succ_mul, Nat.add_comm]

theorem total_le {as : List α} (h : ∀ a ∈ as, f a ≤ g a) : total f as ≤ total g as := by
  induction as with
  | nil => exact Nat.le_refl 0
  | cons a as ih =>
    have h₁ := h a (.head _)
    have h₂ := ih fun b hb => h b (.tail _ hb)
    simp only [total]
    omega

theorem length_le_total {as : List α} (h : ∀ a ∈ as, 1 ≤ f a) : as.length ≤ total f as := by
  induction as with
  | nil => exact Nat.le_refl 0
  | cons a as ih =>
    have h₁ := h a (.head _)
    have h₂ := ih fun b hb => h b (.tail _ hb)
    simp only [total, List.length_cons]
    omega

theorem le_total_of_mem {as : List α} {a : α} (h : a ∈ as) : f a ≤ total f as := by
  induction as with
  | nil => cases h
  | cons b as ih =>
    simp only [total]
    rcases List.mem_cons.1 h with rfl | h
    · omega
    · have := ih h
      omega

end

/-! ## What is declared below a declaration -/

/-- The declarations directly below one: the members of a container, seen from inside it, and what
an export exports where it stands. -/
def declsBelow (p : Scope × Decl) : List (Scope × Decl) :=
  match p.2 with
  | .exports _ (.inline d) => [(p.1, d)]
  | d => (d.members?.getD []).map fun m => (p.1.enter (.decl d), m)

/-- What a search can take up for a declaration: itself and the names that it looks up. -/
def Decl.steps (d : Decl) : List Step :=
  .node d.id :: (d.lookedUp ++ d.followed).map .name

theorem weightList_eq_total (ms : List Decl) : Decl.weightList ms = total Decl.weight ms := by
  induction ms with
  | nil => rfl
  | cons d ds ih => simp only [Decl.weightList, total, ih]

mutual

theorem Ty.length_followed_le (t : Ty) : t.followed.length ≤ t.links := by
  cases t with
  | ref i x ts => exact Nat.le_refl 1
  | keyOf i t => exact t.length_followed_le
  | union i ts =>
    have := Ty.length_followedList_le ts
    simp only [Ty.followed, Ty.links]
    omega
  | intersect i ts => exact Ty.length_followedList_le ts
  | _ => exact Nat.zero_le _

theorem Ty.length_followedList_le (ts : List Ty) : (Ty.followedList ts).length ≤ Ty.linksList ts := by
  match ts with
  | [] => exact Nat.le_refl 0
  | t :: ts =>
    have h₁ := t.length_followed_le
    have h₂ := Ty.length_followedList_le ts
    simp only [Ty.followedList, Ty.linksList, List.length_append]
    omega

end

mutual

/-- The type, and the members of unions in it that are evaluated for it. -/
def Ty.branches : Ty → List Ty
  | .union i ts => .union i ts :: Ty.branchesList ts
  | t => [t]

def Ty.branchesList : List Ty → List Ty
  | [] => []
  | t :: ts => t.branches ++ Ty.branchesList ts

end

theorem Ty.self_mem_branches (t : Ty) : t ∈ t.branches := by
  cases t <;> exact .head _

theorem Ty.branches_subset {t : Ty} {ts : List Ty} (h : t ∈ ts) : t.branches ⊆ Ty.branchesList ts := by
  induction ts with
  | nil => cases h
  | cons u us ih =>
    rw [Ty.branchesList]
    rcases List.mem_cons.1 h with rfl | h
    · exact List.subset_append_left _ _
    · exact fun _ hx => List.mem_append_right _ (ih h hx)

mutual

/-- What passes from a union to its members holds of all branches. -/
theorem Ty.branches_induct {I : Ty → Prop} (h : ∀ i ts, I (.union i ts) → ∀ t ∈ ts, I t) (u : Ty)
    (hu : I u) : ∀ t ∈ u.branches, I t := by
  cases u with
  | union i ts =>
    intro t ht
    rcases List.mem_cons.1 ht with rfl | ht
    · exact hu
    · exact Ty.branchesList_induct h ts (h i ts hu) t ht
  | _ =>
    intro t ht
    rw [List.mem_singleton.1 ht]
    exact hu

theorem Ty.branchesList_induct {I : Ty → Prop} (h : ∀ i ts, I (.union i ts) → ∀ t ∈ ts, I t)
    (us : List Ty) (hus : ∀ u ∈ us, I u) : ∀ t ∈ Ty.branchesList us, I t := by
  match us with
  | [] => exact List.forall_mem_nil _
  | u :: us =>
    intro t ht
    rcases List.mem_append.1 ht with ht | ht
    · exact Ty.branches_induct h u (hus u (.head _)) t ht
    · exact Ty.branchesList_induct h us (fun v hv => hus v (.tail _ hv)) t ht

end

theorem Ty.links_le_of_branch (u : Ty) {t : Ty} (h : t ∈ u.branches) : t.links ≤ u.links := by
  refine Ty.branches_induct (I := fun t => t.links ≤ u.links) (fun i ts hI t ht => ?_) u
    (Nat.le_refl _) t h
  have := Ty.links_le_of_mem ht
  rw [Ty.links] at hI
  omega

theorem Ty.followed_of_branch (u : Ty) {t : Ty} (h : t ∈ u.branches) : t.followed ⊆ u.followed := by
  refine Ty.branches_induct (I := fun t => t.followed ⊆ u.followed) (fun i ts hI t ht q hq => ?_) u
    (fun _ hq => hq) t h
  exact hI (Ty.followed_of_mem ht hq)

mutual

theorem Ty.branch_mem_branches (u : Ty) {i : NodeId} {ts : List Ty} {t : Ty}
    (h : .union i ts ∈ u.branches) (ht : t ∈ ts) : t ∈ u.branches := by
  cases u with
  | union j us =>
    rcases List.mem_cons.1 h with he | h
    · cases he
      exact .tail _ (Ty.branches_subset ht t.self_mem_branches)
    · exact .tail _ (Ty.branch_mem_branchesList us h ht)
  | _ => cases List.mem_singleton.1 h

theorem Ty.branch_mem_branchesList (us : List Ty) {i : NodeId} {ts : List Ty} {t : Ty}
    (h : .union i ts ∈ Ty.branchesList us) (ht : t ∈ ts) : t ∈ Ty.branchesList us := by
  match us with
  | [] => cases h
  | u :: us =>
    rw [Ty.branchesList] at h ⊢
    rcases List.mem_append.1 h with h | h
    · exact List.mem_append_left _ (Ty.branch_mem_branches u h ht)
    · exact List.mem_append_right _ (Ty.branch_mem_branchesList us h ht)

end

theorem total_weight_members (s : Scope) (ms : List Decl) :
    total (fun p => p.2.weight) (ms.map fun m => (s, m)) = Decl.weightList ms := by
  rw [total_map, weightList_eq_total]

theorem length_steps (d : Decl) : d.steps.length = 1 + d.lookedUp.length + d.followed.length := by
  simp only [Decl.steps, List.length_cons, List.length_map, List.length_append]
  omega

theorem steps_add_below_le (p : Scope × Decl) :
    p.2.steps.length + total (fun p => p.2.weight) (declsBelow p) ≤ p.2.weight := by
  obtain ⟨s, d⟩ := p
  rw [length_steps]
  cases d with
  | space h ms | module h ms | augmentation h ms | global h ms =>
    exact Nat.le_of_eq (congrArg (1 + ·) (total_weight_members _ ms))
  | cls c =>
    have h := List.length_filterMap_le Ty.refName? (c.parent.toList ++ c.implements)
    have hp : c.parent.toList.length ≤ 1 := by cases c.parent <;> simp
    rw [List.length_append] at h
    show 1 + 0 + (List.filterMap Ty.refName? (c.parent.toList ++ c.implements)).length + 0 ≤
      2 + c.implements.length
    omega
  | iface i =>
    have h := List.length_filterMap_le Ty.refName? i.inheritance
    show 1 + 0 + (List.filterMap Ty.refName? i.inheritance).length + 0 ≤ 1 + i.inheritance.length
    omega
  | typeAlias a =>
    have h := a.target.length_followed_le
    show 1 + 0 + a.target.followed.length + 0 ≤ 1 + a.target.links
    omega
  | imports i =>
    have h : i.source.lookedUp.length ≤ 1 := by cases i.source <;> simp [Importee.lookedUp]
    show 1 + i.source.lookedUp.length + 0 + 0 ≤ 2 + total Imported.names i.imported
    omega
  | exports h e =>
    cases e with
    | inline d => exact Nat.le_refl (1 + d.weight)
    | names xs m =>
      cases m with
      | none => simp [Decl.lookedUp, Decl.followed, declsBelow, Decl.members?, total, Decl.weight,
          Exportee.weight]
      | some m => exact Nat.le_add_right 1 xs.length
    | star x m => exact Nat.le_refl 1
  | _ => exact Nat.le_refl 1

variable {q : QIdent} {s' : Scope} {c : Scope × Decl} {I : Scope × Decl → Prop} {step : Step}

theorem weight_lt_of_below {p : Scope × Decl} (h : c ∈ declsBelow p) : c.2.weight < p.2.weight := by
  have hle := steps_add_below_le p
  have hc : c.2.weight ≤ total (fun p => p.2.weight) (declsBelow p) :=
    le_total_of_mem (f := fun p : Scope × Decl => p.2.weight) h
  have hs : 1 ≤ p.2.steps.length := by simp [Decl.steps]
  omega

/-- A declaration and all below it, each with the scope that it stands in. -/
def placesBelow (p : Scope × Decl) : List (Scope × Decl) :=
  p :: (declsBelow p).attach.flatMap fun c => placesBelow c.1
termination_by p.2.weight
decreasing_by exact weight_lt_of_below c.2

theorem placesBelow_eq (p : Scope × Decl) : placesBelow p = p :: (declsBelow p).flatMap placesBelow := by
  have h := List.flatMap_map Subtype.val placesBelow (declsBelow p).attach
  rw [placesBelow, ← h, List.attach_map_subtype_val]

theorem mem_placesBelow_self (p : Scope × Decl) : p ∈ placesBelow p := by
  rw [placesBelow_eq]
  exact .head _

theorem placesBelow_closed {x p : Scope × Decl} (hp : p ∈ placesBelow x) (hc : c ∈ declsBelow p) :
    c ∈ placesBelow x := by
  induction x using placesBelow.induct with
  | case1 x ih =>
    rw [placesBelow_eq] at hp ⊢
    rcases List.mem_cons.1 hp with rfl | hp
    · exact .tail _ (List.mem_flatMap.2 ⟨c, hc, mem_placesBelow_self c⟩)
    · obtain ⟨y, hy, hp⟩ := List.mem_flatMap.1 hp
      exact .tail _ (List.mem_flatMap.2 ⟨y, hy, ih ⟨y, hy⟩ hp⟩)

theorem placesBelow_induct {x p : Scope × Decl} (hx : I x)
    (h : ∀ p, p ∈ placesBelow x → I p → ∀ c ∈ declsBelow p, I c) (hp : p ∈ placesBelow x) : I p := by
  induction x using placesBelow.induct with
  | case1 x ih =>
    rw [placesBelow_eq] at hp
    rcases List.mem_cons.1 hp with rfl | hp
    · exact hx
    · obtain ⟨y, hy, hp⟩ := List.mem_flatMap.1 hp
      refine ih ⟨y, hy⟩ (h x (mem_placesBelow_self x) hx y hy) (fun q hq => ?_) hp
      refine h q ?_
      rw [placesBelow_eq]
      exact .tail _ (List.mem_flatMap.2 ⟨y, hy, hq⟩)

theorem total_steps_placesBelow_le (x : Scope × Decl) :
    total (fun p => p.2.steps.length) (placesBelow x) ≤ x.2.weight := by
  induction x using placesBelow.induct with
  | case1 x ih =>
    rw [placesBelow_eq, total, total_flatMap]
    refine Nat.le_trans ?_ (steps_add_below_le x)
    exact Nat.add_le_add_left (total_le fun c hc => ih ⟨c, hc⟩) _

theorem weight_le_of_mem_placesBelow {x p : Scope × Decl} (hp : p ∈ placesBelow x) :
    p.2.weight ≤ x.2.weight :=
  placesBelow_induct (I := fun p => p.2.weight ≤ x.2.weight) (Nat.le_refl _)
    (fun p _ hI c hc => by have := weight_lt_of_below hc; omega) hp

/-! ## What can be reached from a scope -/

namespace Scope

theorem mem_outwards {s : Scope} : s' ∈ s.outwards ↔ s'.root = s.root ∧ s'.frames <:+ s.frames := by
  obtain ⟨root, frames⟩ := s
  obtain ⟨root', frames'⟩ := s'
  induction frames with
  | nil => simp [outwards, outwardsFrom]
  | cons f fs ih =>
    simp only [outwards, outwardsFrom, List.mem_cons, List.suffix_cons_iff] at ih ⊢
    rw [ih, Scope.mk.injEq, and_or_left]

theorem self_mem_outwards (s : Scope) : s ∈ s.outwards :=
  mem_outwards.2 ⟨rfl, List.suffix_refl _⟩

theorem outwards_trans {s s'' : Scope} (h : s' ∈ s.outwards) (h' : s'' ∈ s'.outwards) :
    s'' ∈ s.outwards := by
  rw [mem_outwards] at h h' ⊢
  exact ⟨h'.1.trans h.1, h'.2.trans h.2⟩

theorem outwards_enter (s : Scope) (n : Node) : (s.enter n).outwards = s.enter n :: s.outwards := rfl

theorem length_outwards (s : Scope) : s.outwards.length = s.frames.length + 1 := by
  obtain ⟨root, frames⟩ := s
  induction frames with
  | nil => rfl
  | cons f fs ih => exact congrArg (· + 1) ih

def library (s : Scope) (lib : Dependency) : Scope :=
  ofRoot { s.root with lib := lib.name, pedantic := false }

def libraryFile (s : Scope) (lib : Dependency) : Scope :=
  (s.library lib).enter (.file lib.file)

section
variable {s t : Scope} (hd : s.root.deps = t.root.deps) {x : Ident} {r : Scope}
include hd

theorem dependencyRoot?_eq : s.dependencyRoot? x = some r ↔
    ∃ lib, t.root.deps.find? x = some lib ∧ t.library lib = r := by
  simp only [dependencyRoot?, hd, library, Option.map_eq_some_iff]

theorem dependencyScope?_eq : s.dependencyScope? x = some r ↔
    ∃ lib, t.root.deps.find? x = some lib ∧ t.libraryFile lib = r := by
  cases h : t.root.deps.find? x with
  | none => simp [dependencyScope?, hd, h]
  | some lib => simp [dependencyScope?, dependencyRoot?, hd, h, libraryFile, library]

end

end Scope

/-- Where a search starts: in a scope, with declarations that it looks into there, names that it looks
up there, and types that it evaluates there. -/
structure Start where
  scope : Scope
  decls : List Decl := []
  names : List QIdent := []
  tys : List Ty := []

namespace Start

/-- The declarations in the scopes around, the given ones, and those of the libraries. -/
def openings (S : Start) : List (Scope × Decl) :=
  S.scope.outwards.flatMap (fun s => s.members.map fun d => (s, d)) ++
    S.decls.map (fun d => (S.scope, d)) ++
    S.scope.root.deps.libs.flatMap fun lib =>
      (S.scope.library lib, lib.module) ::
        lib.file.members.map fun d => (S.scope.libraryFile lib, d)

/-- All declarations that the search can find, with the scopes they stand in. -/
def places (S : Start) : List (Scope × Decl) :=
  S.openings.flatMap placesBelow

/-- All scopes that the search can get to. -/
def scopes (S : Start) : List Scope :=
  S.scope.outwards ++
    S.scope.root.deps.libs.flatMap (fun lib => [S.scope.library lib, S.scope.libraryFile lib]) ++
    S.places.map fun p => p.1.enter (.decl p.2)

/-- The target of an alias, as seen from inside it. -/
def aliasTarget? (p : Scope × Decl) : Option (Scope × Ty) :=
  match p.2 with
  | .typeAlias a => some (p.1.enter (.decl p.2), a.target)
  | _ => none

/-- All types that the search can evaluate, apart from members of unions. -/
def evaluated (S : Start) : List (Scope × Ty) :=
  S.tys.map (fun t => (S.scope, t)) ++ S.places.filterMap aliasTarget?

/-- All steps that the search can take. -/
def steps (S : Start) : List Step :=
  (S.names ++ Ty.followedList S.tys).map .name ++ S.places.flatMap fun p => p.2.steps

/-- All pairs that can come on the trail of the search. -/
def pairs (S : Start) : List (ScopeKey × Step) :=
  S.scopes.flatMap fun s => S.steps.map fun step => (s.key, step)

/-- The weight of all declarations that the search can reach. -/
def reach (S : Start) : Nat :=
  S.scope.reach + Decl.weightList S.decls

/-- How many names the search starts with, those of its types included. -/
def links (S : Start) : Nat :=
  Ty.linksList S.tys + S.names.length

/-! ## It is closed -/

variable {t : Ty}

section
variable {S : Start} {s : Scope} {p : Scope × Decl} {d : Decl}

theorem mem_scopes : s ∈ S.scopes ↔ s ∈ S.scope.outwards ∨
    (∃ lib ∈ S.scope.root.deps.libs, s = S.scope.library lib ∨ s = S.scope.libraryFile lib) ∨
      ∃ p ∈ S.places, p.1.enter (.decl p.2) = s := by
  simp [scopes]

theorem mem_places_of_below (hp : p ∈ S.places) (hc : c ∈ declsBelow p) : c ∈ S.places := by
  obtain ⟨x, hx, hp⟩ := List.mem_flatMap.1 hp
  exact List.mem_flatMap.2 ⟨x, hx, placesBelow_closed hp hc⟩

theorem mem_places_of_opening (h : p ∈ S.openings) : p ∈ S.places :=
  List.mem_flatMap.2 ⟨p, h, mem_placesBelow_self p⟩

/-- What holds of the openings and passes on to what is directly below holds of all places. -/
theorem places_induct (hopen : ∀ p ∈ S.openings, I p)
    (h : ∀ p ∈ S.places, I p → ∀ c ∈ declsBelow p, I c) (hp : p ∈ S.places) : I p := by
  obtain ⟨x, hx, hp⟩ := List.mem_flatMap.1 hp
  exact placesBelow_induct (hopen x hx) (fun q hq => h q (List.mem_flatMap.2 ⟨x, hx, hq⟩)) hp

theorem scope_of_opening (h : p ∈ S.openings) : p.1 ∈ S.scope.outwards ∨
    ∃ lib ∈ S.scope.root.deps.libs, p.1 = S.scope.library lib ∨ p.1 = S.scope.libraryFile lib := by
  rcases List.mem_append.1 h with h | h
  · rcases List.mem_append.1 h with h | h
    · obtain ⟨s, hs, h⟩ := List.mem_flatMap.1 h
      obtain ⟨d, -, rfl⟩ := List.mem_map.1 h
      exact .inl hs
    · obtain ⟨d, -, rfl⟩ := List.mem_map.1 h
      exact .inl S.scope.self_mem_outwards
  · obtain ⟨lib, hlib, h⟩ := List.mem_flatMap.1 h
    rcases List.mem_cons.1 h with rfl | h
    · exact .inr ⟨lib, hlib, .inl rfl⟩
    · obtain ⟨d, -, rfl⟩ := List.mem_map.1 h
      exact .inr ⟨lib, hlib, .inr rfl⟩

theorem scope_of_below (h : c ∈ declsBelow p) : c.1 = p.1 ∨ c.1 = p.1.enter (.decl p.2) := by
  obtain ⟨s, d⟩ := p
  unfold declsBelow at h
  split at h
  · exact .inl (by rw [List.mem_singleton] at h; rw [h])
  · obtain ⟨m, -, rfl⟩ := List.mem_map.1 h
    exact .inr rfl

theorem mem_scopes_of_place (hp : p ∈ S.places) : p.1 ∈ S.scopes := by
  refine places_induct (I := fun p => p.1 ∈ S.scopes) (fun p hp => ?_) (fun p hp hI c hc => ?_) hp
  · exact mem_scopes.2 ((scope_of_opening hp).imp_right .inl)
  · rcases scope_of_below hc with h | h
    · exact h ▸ hI
    · exact mem_scopes.2 (.inr (.inr ⟨p, hp, h.symm⟩))

theorem outwards_subset_scopes (hs : s ∈ S.scopes) (h : s' ∈ s.outwards) : s' ∈ S.scopes := by
  obtain ⟨root, frames⟩ := s
  induction frames with
  | nil => exact List.mem_singleton.1 h ▸ hs
  | cons f fs ih =>
    rcases List.mem_cons.1 h with rfl | h
    · exact hs
    refine ih ?_ h
    rcases mem_scopes.1 hs with hs | ⟨lib, hl, hs | hs⟩ | ⟨p, hp, hs⟩
    · exact mem_scopes.2 (.inl (Scope.outwards_trans hs
        (.tail _ (Scope.self_mem_outwards ⟨root, fs⟩))))
    · cases hs
    · cases hs
      exact mem_scopes.2 (.inr (.inl ⟨lib, hl, .inl rfl⟩))
    · cases hs
      exact mem_scopes_of_place hp

theorem deps_of_mem_scopes (hs : s ∈ S.scopes) : s.root.deps = S.scope.root.deps := by
  have hbase : ∀ s, (s ∈ S.scope.outwards ∨ ∃ lib ∈ S.scope.root.deps.libs,
      s = S.scope.library lib ∨ s = S.scope.libraryFile lib) →
      s.root.deps = S.scope.root.deps := by
    rintro s (h | ⟨lib, -, rfl | rfl⟩)
    · rw [(Scope.mem_outwards.1 h).1]
    · rfl
    · rfl
  rcases mem_scopes.1 hs with hs | hs | ⟨p, hp, rfl⟩
  · exact hbase s (.inl hs)
  · exact hbase s (.inr hs)
  · refine places_induct (I := fun p => p.1.root.deps = S.scope.root.deps) (fun p hp => ?_)
      (fun p _ hI c hc => ?_) hp
    · exact hbase p.1 (scope_of_opening hp)
    · rcases scope_of_below hc with h | h
      · exact h ▸ hI
      · rw [h]
        exact hI

theorem mem_libs_of_find {x : Ident} {lib : Dependency}
    (h : S.scope.root.deps.find? x = some lib) : lib ∈ S.scope.root.deps.libs :=
  List.mem_of_find?_eq_some h

theorem mem_declsBelow_of_member {m : Decl} (h : m ∈ (s.enter (.decl d)).members) :
    (s.enter (.decl d), m) ∈ declsBelow (s, d) := by
  cases d with
  | exports x e => cases e <;> cases h
  | _ => exact List.mem_map_of_mem h

theorem mem_places_of_member (hs : s ∈ S.scopes) (h : d ∈ s.members) : (s, d) ∈ S.places := by
  rcases mem_scopes.1 hs with hs | ⟨lib, hl, rfl | rfl⟩ | ⟨p, hp, rfl⟩
  · refine mem_places_of_opening (List.mem_append_left _ (List.mem_append_left _ ?_))
    exact List.mem_flatMap.2 ⟨s, hs, List.mem_map_of_mem h⟩
  · cases h
  · refine mem_places_of_opening (List.mem_append_right _ ?_)
    exact List.mem_flatMap.2 ⟨lib, hl, .tail _ (List.mem_map_of_mem h)⟩
  · exact mem_places_of_below hp (mem_declsBelow_of_member h)

theorem mem_places_of_exportee {h : ExportHead}
    (hp : (s, .exports h (.inline d)) ∈ S.places) : (s, d) ∈ S.places :=
  mem_places_of_below hp (List.mem_singleton.2 rfl)

theorem mem_places_of_holds (hs : s ∈ S.scopes) (h : s.Holds d) : (s, d) ∈ S.places := by
  rcases h with h | ⟨x, h⟩ | ⟨x, lib, hl, hr, rfl⟩
  · exact mem_places_of_member hs h
  · exact mem_places_of_exportee (mem_places_of_member hs h)
  · have hd := deps_of_mem_scopes hs
    obtain ⟨lib', hl', rfl⟩ := (Scope.dependencyRoot?_eq hd).1 hr
    rw [hd] at hl
    cases hl.symm.trans hl'
    refine mem_places_of_opening (List.mem_append_right _ ?_)
    exact List.mem_flatMap.2 ⟨lib, mem_libs_of_find hl, .head _⟩

theorem mem_steps_of_place (hp : p ∈ S.places) (h : step ∈ p.2.steps) : step ∈ S.steps :=
  List.mem_append_right _ (List.mem_flatMap.2 ⟨p, hp, h⟩)

theorem name_mem_steps_of_place (hp : p ∈ S.places) (h : q ∈ p.2.lookedUp ++ p.2.followed) :
    .name q ∈ S.steps :=
  mem_steps_of_place hp (.tail _ (List.mem_map_of_mem h))

theorem name_mem_steps_of_evaluated (h : (s, t) ∈ S.evaluated) (hq : q ∈ t.followed) : .name q ∈ S.steps := by
  rcases List.mem_append.1 h with h | h
  · obtain ⟨t', ht', he⟩ := List.mem_map.1 h
    cases he
    refine List.mem_append_left _ (List.mem_map_of_mem (List.mem_append_right _ ?_))
    exact Ty.followed_of_mem ht' hq
  · obtain ⟨⟨s', d⟩, hp, he⟩ := List.mem_filterMap.1 h
    cases d with
    | typeAlias a =>
      cases he
      exact name_mem_steps_of_place hp (List.mem_append_right _ hq)
    | _ => cases he

end

/-! ## How much it is -/

theorem total_weight_openings_le (S : Start) :
    total (fun p => p.2.weight) S.openings +
        (S.scope.frames.length + 1 + 2 * S.scope.root.deps.libs.length) ≤ S.reach := by
  obtain ⟨⟨root, frames⟩, ds, xs, ts⟩ := S
  have hout : total (fun s => Decl.weightList s.members) (Scope.outwardsFrom root frames) +
      frames.length ≤ total (fun f => f.node.weight + 1) frames := by
    induction frames with
    | nil => exact Nat.le_refl 0
    | cons f fs ih =>
      have hf : Decl.weightList (Scope.mk root (f :: fs)).members ≤ f.node.weight := by
        obtain ⟨node, ps, ks⟩ := f
        cases node with
        | decl d => cases d <;> simp [Scope.members, Scope.current?, Node.members?, Decl.members?,
            Node.weight, Decl.weight, Decl.weightList]
        | _ => simp [Scope.members, Scope.current?, Node.members?, Node.weight, Decl.weightList]
      simp only [Scope.outwardsFrom, total, List.length_cons] at ih ⊢
      omega
  have hlib : ∀ s : Scope, total (fun lib => lib.module.weight +
        Decl.weightList lib.file.members) root.deps.libs + 2 * root.deps.libs.length =
      total (fun d => d.module.weight + Decl.weightList d.file.members + 2) root.deps.libs := by
    intro s
    induction root.deps.libs with
    | nil => rfl
    | cons lib libs ih =>
      simp only [total, List.length_cons] at ih ⊢
      omega
  have hlib := hlib ⟨root, frames⟩
  simp only [openings, Scope.outwards, total_append, total_flatMap, total, total_weight_members,
    reach, Scope.reach]
  omega

theorem total_steps_places_le (S : Start) :
    total (fun p => p.2.steps.length) S.places ≤ total (fun p => p.2.weight) S.openings := by
  rw [places, total_flatMap]
  exact total_le fun x _ => total_steps_placesBelow_le x

theorem length_scopes_le (S : Start) : S.scopes.length ≤ S.reach := by
  have hpls : S.places.length ≤ total (fun p => p.2.steps.length) S.places :=
    length_le_total fun p _ => by simp [Decl.steps]
  have hlibs : (S.scope.root.deps.libs.flatMap fun lib =>
      [S.scope.library lib, S.scope.libraryFile lib]).length =
        2 * S.scope.root.deps.libs.length := by
    rw [length_flatMap_eq_total, Nat.mul_comm]
    exact total_const 2 _
  have hsteps := S.total_steps_places_le
  have hopen := S.total_weight_openings_le
  simp only [scopes, List.length_append, List.length_map, Scope.length_outwards, hlibs]
  omega

theorem length_steps_le (S : Start) : S.steps.length ≤ S.reach + S.links := by
  have hsteps := S.total_steps_places_le
  have hopen := S.total_weight_openings_le
  have htys := Ty.length_followedList_le S.tys
  simp only [steps, List.length_append, List.length_map, length_flatMap_eq_total, links]
  omega

theorem length_pairs_le (S : Start) : S.pairs.length ≤ S.reach * (S.reach + S.links) := by
  have hpairs : S.pairs.length = S.scopes.length * S.steps.length := by
    simp only [pairs, length_flatMap_eq_total, List.length_map, total_const]
  rw [hpairs]
  exact Nat.mul_le_mul S.length_scopes_le S.length_steps_le

theorem weight_le_of_mem_places {S : Start} {p : Scope × Decl} (hp : p ∈ S.places) :
    p.2.weight ≤ S.reach := by
  obtain ⟨x, hx, hp⟩ := List.mem_flatMap.1 hp
  have hle := weight_le_of_mem_placesBelow hp
  have hx' : x.2.weight ≤ total (fun p => p.2.weight) S.openings :=
    le_total_of_mem (f := fun p : Scope × Decl => p.2.weight) hx
  have hopen := S.total_weight_openings_le
  omega

theorem links_le_of_evaluated {S : Start} {s : Scope} (h : (s, t) ∈ S.evaluated) :
    t.links ≤ S.reach + S.links := by
  rcases List.mem_append.1 h with h | h
  · obtain ⟨t', ht', he⟩ := List.mem_map.1 h
    cases he
    have := Ty.links_le_of_mem ht'
    rw [links]
    omega
  · obtain ⟨⟨s', d⟩, hp, he⟩ := List.mem_filterMap.1 h
    cases d with
    | typeAlias a =>
      cases he
      have hw : 1 + a.target.links ≤ S.reach := weight_le_of_mem_places hp
      omega
    | _ => cases he

/-! ## The territory -/

/-- What the search can reach. -/
def territory (S : Start) : Territory where
  scope s := s ∈ S.scopes
  stands s d := (s, d) ∈ S.places
  found s d := (s, d) ∈ S.places
  name _ q := .name q ∈ S.steps
  ty s t := ∃ u, (s, u) ∈ S.evaluated ∧ t ∈ u.branches
  plain := False
  container hs h _ := outwards_subset_scopes hs h
  root hs h := by
    obtain ⟨lib, hl, rfl⟩ := (Scope.dependencyRoot?_eq (deps_of_mem_scopes hs)).1 h
    exact mem_scopes.2 (.inr (.inl ⟨lib, mem_libs_of_find hl, .inl rfl⟩))
  file hs h := by
    obtain ⟨lib, hl, rfl⟩ := (Scope.dependencyScope?_eq (deps_of_mem_scopes hs)).1 h
    exact mem_scopes.2 (.inr (.inl ⟨lib, mem_libs_of_find hl, .inr rfl⟩))
  enter _ hd := mem_scopes.2 (.inr (.inr ⟨_, hd, rfl⟩))
  member hs hd := mem_places_of_member hs hd
  held hs hd := mem_places_of_holds hs hd
  exportee _ hd := mem_places_of_exportee hd
  lookedUp _ hd hq := name_mem_steps_of_place hd (List.mem_append_left _ hq)
  followed _ _ _ _ _ hd hq := name_mem_steps_of_place hd (List.mem_append_right _ hq)
  target _ s a _ hd := ⟨a.target,
    List.mem_append_right _ (List.mem_filterMap.2 ⟨(s, .typeAlias a), hd, rfl⟩),
    a.target.self_mem_branches⟩
  part := fun _ _ _ _ _ ⟨u, hu, h⟩ ht => ⟨u, hu, Ty.branch_mem_branches u h ht⟩
  tyName := fun _ _ _ _ ⟨_, hu, h⟩ hq => name_mem_steps_of_evaluated hu (Ty.followed_of_branch _ h hq)

theorem mem_pairs {S : Start} {s : Scope} (hs : s ∈ S.scopes) (h : step ∈ S.steps) :
    (s.key, step) ∈ S.pairs :=
  List.mem_flatMap.2 ⟨s, hs, List.mem_map_of_mem h⟩

/-- **The pairs and ranks of the territory are bounded.** -/
theorem territory_bounded (S : Start) :
    S.territory.realm.Bounded S.pairs (S.reach + S.links + 2) where
  pair {q p} hq hp := by
    have hnode : ∀ {s d}, s ∈ S.scopes → (s, d) ∈ S.places → (s.key, .node d.id) ∈ S.pairs :=
      fun hs hd => mem_pairs hs (mem_steps_of_place hd (.head _))
    cases q with
    | name picker s q =>
      simp only [Question.pair?] at hp
      split at hp
      · cases hp
      · cases hp
        exact mem_pairs hq.1 hq.2.1
    | imported s i | exported s h e => cases hp; exact hnode hq.1 hq.2
    | contribution f => cases hp; exact hnode hq.2.1 hq.2.2
    | aliasKeys f t | ctorsOf f c => cases hp; exact hnode hq.2.1.1 hq.2.1.2
    | members s q | keys s t | ctors s q targs => cases hp
  rank {q} hq := by
    cases q with
    | keys s t =>
      obtain ⟨u, hu, ht⟩ := hq.2.2
      have hl := links_le_of_evaluated hu
      have hl' := Ty.links_le_of_branch u ht
      simp only [Question.rank]
      omega
    | _ => simp [Question.rank]

theorem left_lt_bound (S : Start) {R : Nat} (hR : S.reach ≤ R) (T : Trail) {q : Question}
    (hq : S.territory.realm.asked q) :
    T.left S.pairs * (S.reach + S.links + 2 + 2) + q.rank <
      (R * (R + S.links) + 1) * (R + S.links + 4) := by
  have hrank := S.territory_bounded.rank hq
  have hleft : T.left S.pairs ≤ R * (R + S.links) := calc
    T.left S.pairs ≤ S.pairs.length := List.countP_le_length
    _ ≤ S.reach * (S.reach + S.links) := S.length_pairs_le
    _ ≤ R * (R + S.links) := Nat.mul_le_mul hR (by omega)
  have hmul : T.left S.pairs * (S.reach + S.links + 2 + 2) ≤
      R * (R + S.links) * (R + S.links + 4) := Nat.mul_le_mul hleft (by omega)
  rw [Nat.succ_mul]
  omega

end Start

end Ambient
