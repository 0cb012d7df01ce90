import Ambient.Proofs.Dependence

/-!
# Tables of a scope

A scope hands the type parameters and mapped-type keys in force down from frame to frame. The declarations
that a type depends on are looked up in a table that is built from the entered nodes instead. Both follow the
same rule: an inner node hides an outer one, and a later parameter of a node hides an earlier one.

* `Scope.tparam?_enter`, `Scope.isAbstract_enter`: what entering one node adds.
* `scope_tables_agree`: what entering any nodes gives.
-/

namespace Ambient

/-- The last type parameter of a name that a node introduces. -/
def Node.lastParam? (n : Node) (x : Ident) : Option TypeParam :=
  (n.tparams.filter fun p => p.name == x).getLast?

/-- The scope inside the nodes, which are entered one after another. -/
def Root.inside (root : Root) (nodes : List Node) : Scope :=
  nodes.foldl Scope.enter (.ofRoot root)

variable {x : Ident}

theorem Scope.tparam?_enter (s : Scope) (n : Node) (x : Ident) :
    (s.enter n).tparam? x = (n.lastParam? x).or (s.tparam? x) := by
  have htparams : (s.enter n).tparams = (n.tparams.map fun p => (p.name, p)).reverse ++ s.tparams :=
    foldl_params n.tparams s.tparams
  rw [tparam?, htparams, List.lookup_append, ← List.map_reverse, lookup_named, Node.lastParam?,
    List.getLast?_eq_head?_reverse, ← List.filter_reverse, List.head?_filter]
  rfl

section
variable (root : Root) (nodes : List Node)

theorem Root.inside_concat (n : Node) : root.inside (nodes ++ [n]) = (root.inside nodes).enter n :=
  List.foldl_concat ..

theorem Root.stack_inside : (root.inside nodes).stack = nodes.reverse := by
  induction nodes using List.reverseRecOn with
  | nil => rfl
  | append_singleton nodes n ih =>
    rw [inside_concat, List.reverse_concat, ← ih]
    rfl

theorem Root.entered_inside : (root.inside nodes).Entered := by
  induction nodes using List.reverseRecOn with
  | nil => exact .root root
  | append_singleton nodes n ih => exact inside_concat root nodes n ▸ .enter n ih

theorem Root.tparam?_inside : (root.inside nodes).tparam? x = nodes.reverse.findSome? (·.lastParam? x) := by
  induction nodes using List.reverseRecOn with
  | nil => rfl
  | append_singleton nodes n ih =>
    rw [inside_concat, Scope.tparam?_enter, ih, List.reverse_concat, List.findSome?_cons]
    cases n.lastParam? x <;> rfl

theorem Root.isAbstract_inside : (root.inside nodes).isAbstract [x] = true ↔
    ∃ n ∈ nodes, x ∈ n.tparams.map (·.name) ∨ n.typeKey? = some x := by
  induction nodes using List.reverseRecOn with
  | nil => simp [inside, Scope.isAbstract, Scope.tparam?, Scope.tparams, Scope.tkeys, Scope.ofRoot]
  | append_singleton nodes n ih =>
    rw [inside_concat, Scope.isAbstract_enter, ih]
    simp only [List.mem_append, List.mem_singleton]
    grind

/-- **The tables of a scope agree with the nodes that were entered.** -/
theorem scope_tables_agree (x : Ident) :
    (root.inside nodes).stack = nodes.reverse ∧
    (root.inside nodes).tparam? x = nodes.reverse.findSome? (·.lastParam? x) ∧
    ((root.inside nodes).isAbstract [x] = true ↔
      ∃ n ∈ nodes, x ∈ n.tparams.map (·.name) ∨ n.typeKey? = some x) ∧
    ∀ p, (x, p) ∈ declaredParams (root.inside nodes).stack.reverse ↔ (root.inside nodes).tparam? x = some p := by
  refine ⟨root.stack_inside nodes, root.tparam?_inside nodes, root.isAbstract_inside nodes, fun p => ?_⟩
  rw [← (root.entered_inside nodes).lookup_declaredParams]
  exact ⟨lookup_of_mem (nodup_keys_putAll _), mem_of_lookup⟩

end

end Ambient
