import Ambient.Proofs.FreeParams
import Ambient.Proofs.Leaves

/-!
# What a type depends on

The type parameters of a type are those that can be reached from it: the declared names that it mentions,
the declared names that the bounds and defaults of these mention, and so on.

* `Scope.Depends`: the least set of names with this property.
* `wantedFrom_depends`: nothing else is found. That all of it is found is `Scope.wantedOf_closed`.
* `paramsOf_depends`: which parameters these are, and in which order.
-/

namespace Ambient

namespace Scope

variable (s : Scope)

/-- The type parameters that the entered nodes declare, outermost first. -/
def declarations : List TypeParam := s.stack.reverse.flatMap Node.tparams

/-- The innermost declaration of a name. -/
def innermost? (x : Ident) : Option TypeParam := s.declarations.reverse.find? fun p => p.name == x

/-- The declared names that a type leads to: those that it mentions, and those that are mentioned in the bound
or default of an innermost declaration that it leads to. -/
inductive Depends (t : Ty) : Ident → Prop
  | mentioned {x : Ident} (hx : [x] ∈ t.mentions) (hdecl : x ∈ s.declarations.map (·.name)) : Depends t x
  | limit {x y : Ident} {p : TypeParam} {u : Ty} (hy : Depends t y) (hp : s.innermost? y = some p)
    (hu : p.upperBound = some u ∨ p.default = some u) (hx : [x] ∈ u.mentions)
    (hdecl : x ∈ s.declarations.map (·.name)) : Depends t x

end Scope

/-! ## The table of declarations -/

section
variable {κ α : Type} [BEq κ] [LawfulBEq κ]

theorem keys_putAll (pairs : List (κ × α)) : (putAll pairs).map Prod.fst = firsts (pairs.map Prod.fst) := by
  induction pairs using List.reverseRecOn with
  | nil => rfl
  | append_singleton pairs e ih =>
    have hmem : e.1 ∈ firsts (pairs.map Prod.fst) ↔ (pairs.map Prod.fst).any (· == e.1) = true := by
      rw [← distinct_eq_firsts, ← any_distinct]
      simp
    rw [putAll_concat, keys_put, ih, List.map_append, List.map_singleton, firsts_concat]
    simp only [hmem]
    split <;> simp

end

theorem lookup_named (ps : List TypeParam) (x : Ident) :
    (ps.map fun p => (p.name, p)).lookup x = ps.find? fun p => p.name == x := by
  induction ps with
  | nil => rfl
  | cons p ps ih =>
    rw [List.map_cons, List.lookup_cons, List.find?_cons, ih, BEq.comm]

section
variable (s : Scope)

theorem declaredParams_eq :
    declaredParams s.stack.reverse = putAll (s.declarations.map fun p => (p.name, p)) := by
  rw [declaredParams, Scope.declarations, List.map_flatMap]

theorem lookup_declaredParams (x : Ident) : (declaredParams s.stack.reverse).lookup x = s.innermost? x := by
  rw [declaredParams_eq, lookup_putAll, ← List.map_reverse, lookup_named, Scope.innermost?]

theorem keys_declaredParams :
    (declaredParams s.stack.reverse).map Prod.fst = firsts (s.declarations.map (·.name)) := by
  rw [declaredParams_eq, keys_putAll, List.map_map]
  rfl

theorem isSome_innermost? {x : Ident} : (s.innermost? x).isSome ↔ x ∈ s.declarations.map (·.name) := by
  simp [Scope.innermost?]

end

/-! ## What is wanted is reached -/

/-- The declared names in the type are as `reached` says. -/
def Ty.Reaches (declared : List (Ident × TypeParam)) (reached : Ident → Prop) (u : Ty) : Prop :=
  ∀ x ∈ u.simpleMentions, (declared.lookup x).isSome → reached x

section
variable {declared : List (Ident × TypeParam)} {reached : Ident → Prop}
  (hlimits : ∀ {x p}, reached x → declared.lookup x = some p → ∀ u ∈ p.limits, u.Reaches declared reached)
  {wanted : List Ident} {pending : List Ty}
include hlimits

/-- Looking at one type: what is wanted on its account is reached, and so is what is mentioned in the types that
come with it. -/
theorem wantNames_depends {xs : List Ident} (hxs : ∀ x ∈ xs, (declared.lookup x).isSome → reached x)
    (hwant : ∀ x ∈ wanted, reached x) (hpend : ∀ u ∈ pending, u.Reaches declared reached) :
    (∀ x ∈ (wantNames declared xs wanted pending).1, reached x) ∧
      ∀ u ∈ (wantNames declared xs wanted pending).2, u.Reaches declared reached := by
  induction xs generalizing wanted pending with
  | nil => exact ⟨hwant, hpend⟩
  | cons x xs ih =>
    have hrest : ∀ y ∈ xs, (declared.lookup y).isSome → reached y := fun y hy => hxs y (.tail _ hy)
    rw [wantNames]
    split
    · exact ih hrest hwant hpend
    · split
      · exact ih hrest hwant hpend
      · rename_i p hp
        have hx : reached x := hxs x (.head _) (by simp [hp])
        exact ih hrest (List.forall_mem_append.2 ⟨hwant, List.forall_mem_singleton.2 hx⟩)
          (List.forall_mem_append.2 ⟨hlimits hx hp, hpend⟩)

theorem wantedFrom_depends (n : Nat) (hwant : ∀ x ∈ wanted, reached x)
    (hpend : ∀ u ∈ pending, u.Reaches declared reached) :
    ∀ x ∈ wantedFrom declared n wanted pending, reached x := by
  induction n generalizing wanted pending with
  | zero => exact hwant
  | succ n ih =>
    cases pending with
    | nil => exact hwant
    | cons u pending =>
      have hpend := List.forall_mem_cons.1 hpend
      have hnext := wantNames_depends hlimits hpend.1 hwant hpend.2
      exact ih hnext.1 hnext.2

end

section
variable {s : Scope} {t : Ty}

theorem TypeParam.mem_limits {p : TypeParam} {u : Ty} :
    u ∈ p.limits ↔ p.upperBound = some u ∨ p.default = some u := by
  simp [limits, or_comm]

theorem Ty.mem_simpleMentions {x : Ident} : x ∈ t.simpleMentions ↔ [x] ∈ t.mentions := by
  refine ⟨fun h => ?_, fun h => List.mem_filterMap.2 ⟨[x], h, rfl⟩⟩
  obtain ⟨q, hq, hx⟩ := List.mem_filterMap.1 h
  match q, hx with
  | [_], rfl => exact hq

theorem Scope.mem_wantedOf {x : Ident} : x ∈ s.wantedOf t ↔ s.Depends t x := by
  have hdeclared : ∀ {y}, ((declaredParams s.stack.reverse).lookup y).isSome ↔
      y ∈ s.declarations.map (·.name) := by
    intro y
    rw [lookup_declaredParams, isSome_innermost?]
  constructor
  · refine wantedFrom_depends (fun hy hp u hu z hz hdecl => ?_) _ (List.forall_mem_nil _) ?_ x
    · rw [lookup_declaredParams] at hp
      exact .limit hy hp (TypeParam.mem_limits.1 hu) (Ty.mem_simpleMentions.1 hz) (hdeclared.1 hdecl)
    · refine List.forall_mem_singleton.2 fun y hy hdecl => ?_
      exact .mentioned (Ty.mem_simpleMentions.1 hy) (hdeclared.1 hdecl)
  · obtain ⟨hcovered, haw⟩ := s.wantedOf_closed t
    intro h
    induction h with
    | mentioned hx hdecl => exact hcovered _ (Ty.mem_simpleMentions.2 hx) (hdeclared.2 hdecl)
    | limit _ hp hu hx hdecl ih =>
      rw [← lookup_declaredParams] at hp
      rcases haw _ ih _ hp _ (TypeParam.mem_limits.2 hu) with hnil | hcov
      · cases hnil
      · exact hcov _ (Ty.mem_simpleMentions.2 hx) (hdeclared.2 hdecl)

end

/-- **The parameters of a type are those that it leads to.** Their names come in the order of their first
declarations, outermost first, and none comes twice. They are exactly the names that the type leads to, and
each stands for its innermost declaration. -/
theorem paramsOf_depends (s : Scope) (t : Ty) :
    ((s.paramsOf t).map (·.name)).Sublist (firsts (s.declarations.map (·.name))) ∧
    ((s.paramsOf t).map (·.name)).Nodup ∧
    (∀ x, x ∈ (s.paramsOf t).map (·.name) ↔ s.Depends t x) ∧
    ∀ p ∈ s.paramsOf t, s.innermost? p.name = some p := by
  have hnodup : ((declaredParams s.stack.reverse).map Prod.fst).Nodup := nodup_keys_putAll _
  have hentry : ∀ {e}, e ∈ declaredParams s.stack.reverse → s.innermost? e.1 = some e.2 ∧ e.2.name = e.1 := by
    intro e he
    have hlookup := lookup_of_mem hnodup he
    exact ⟨(lookup_declaredParams s e.1).symm.trans hlookup, Scope.mem_declaredParams_name hlookup⟩
  have hnames : (s.paramsOf t).map (·.name) =
      ((declaredParams s.stack.reverse).filter fun e => (s.wantedOf t).contains e.1).map Prod.fst := by
    rw [Scope.paramsOf, List.map_map]
    exact List.map_congr_left fun e he => (hentry (List.mem_filter.1 he).1).2
  have hsub : ((s.paramsOf t).map (·.name)).Sublist ((declaredParams s.stack.reverse).map Prod.fst) :=
    hnames ▸ List.filter_sublist.map _
  refine ⟨keys_declaredParams s ▸ hsub, hnodup.sublist hsub, fun x => ?_, fun p hp => ?_⟩
  · rw [hnames, ← Scope.mem_wantedOf]
    simp only [List.mem_map, List.mem_filter, List.contains_iff_mem]
    constructor
    · rintro ⟨e, ⟨-, he⟩, rfl⟩
      exact he
    · intro hx
      have hdecl : (s.innermost? x).isSome := by
        rw [isSome_innermost?]
        cases Scope.mem_wantedOf.1 hx <;> assumption
      obtain ⟨p, hp⟩ := Option.isSome_iff_exists.1 hdecl
      rw [← lookup_declaredParams] at hp
      exact ⟨(x, p), ⟨mem_of_lookup hp, hx⟩, rfl⟩
  · obtain ⟨e, he, rfl⟩ := List.mem_map.1 hp
    obtain ⟨hinner, hname⟩ := hentry (List.mem_filter.1 he).1
    rw [hname, hinner]

/-- The scope in `<T, U extends T, V>()`. -/
def boundedScope : Scope :=
  (Scope.ofRoot ((Library.mk "lib" (.ofMembers "lib" []) []).root false)).enter
    (.sig ⟨{}, [.ofName "T", ⟨{}, "U", some (.reference ["T"] []), none⟩, .ofName "V"], [], none⟩)

/-- `U[]` leads to `U`, and by its bound to `T`. -/
theorem paramsOf_depends_bound :
    (boundedScope.paramsOf (.repeated 0 (.reference ["U"] []))).map (·.name) = ["T", "U"] ∧
      boundedScope.Depends (.repeated 0 (.reference ["U"] [])) "T" ∧
      TypeParam.ofName "T" ∈ boundedScope.paramsOf (.repeated 0 (.reference ["U"] [])) ∧
      boundedScope.innermost? "T" = some (.ofName "T") := by
  have hnames : (boundedScope.paramsOf (.repeated 0 (.reference ["U"] []))).map (·.name) = ["T", "U"] := by
    decide +kernel
  obtain ⟨-, -, hdepends, hinner⟩ := paramsOf_depends boundedScope (.repeated 0 (.reference ["U"] []))
  have hmem : TypeParam.ofName "T" ∈ boundedScope.paramsOf (.repeated 0 (.reference ["U"] [])) := .head _
  exact ⟨hnames, (hdepends "T").1 (hnames ▸ .head _), hmem, hinner _ hmem⟩

end Ambient
