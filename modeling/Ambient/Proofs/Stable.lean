import Ambient.Proofs.Settled

/-!
# Normalising a library twice

A step may leave an idiom behind that a step before it replaces: writing out a mapped type can put a
union into a union. So the file that a run gives need not be given back by the next run. If no such
idiom is left in it, it is (`compile_twice`). What need not be asked for are places, comments, and names
for literals outside type parameters: a run leaves these done (`compile_settles`).

A file is in normal form, for example, if it declares no variables and classes and none of its types is
compound (`Root.normal_of_simple`).
-/

namespace Ambient

/-- A step that finds nothing to do. -/
def Pass.Rests (p : Pass) (root : Root) (f : File) : Prop :=
  ∀ σ : Session, σ.Faithful (root.searches f).realm →
    ∃ σ', (p.run (.ofRoot root) f).run σ = .ok (.keep f, σ')

section
variable {root : Root} {o : Options} {f : File}

theorem Pass.Rests.runAnew {p : Pass} (h : p.Rests root (f.number root.deps.nextId).1)
    (hdeps : root.deps.InOrder) (remember : Bool) :
    p.runAnew root remember f = .ok (.keep (f.number root.deps.nextId).1) := by
  have hfresh := Session.faithful_fresh (Root.numbered_number hdeps f).searches.apart remember
  obtain ⟨σ', hrun⟩ := h _ hfresh
  exact congrArg (fun r => r >>= fun x => pure x.1) hrun

end

/-! ## What a run leaves done -/

def Library.withFile (lib : Library) (f : File) : Library := { lib with file := f }

theorem File.relabelled (f : File) (n : NodeId) : (Node.file f).Relabelled (.file (f.number n).1) :=
  ⟨n, rfl⟩

/-- Does the condition hold of the node and of all nodes in it, of which none is deeper in? -/
def Node.allTo (p : Node → Bool) : Nat → Node → Bool
  | 0, _ => false
  | depth + 1, n => p n && n.children.all (allTo p depth)

theorem File.Contains.of_allTo {p : Node → Bool} {depth : Nat} {f : File}
    (h : (Node.file f).allTo p depth = true) {n : Node} (hn : f.Contains n) : p n = true := by
  have hsome : ∃ depth, n.allTo p depth = true := by
    induction hn with
    | file => exact ⟨depth, h⟩
    | @child n m _ hm ih =>
      obtain ⟨depth, hdepth⟩ := ih
      cases depth with
      | zero => cases hdepth
      | succ depth =>
        rw [Node.allTo, Bool.and_eq_true] at hdepth
        exact ⟨depth, List.all_eq_true.1 hdepth.2 m hm⟩
  obtain ⟨depth, hdepth⟩ := hsome
  cases depth with
  | zero => cases hdepth
  | succ depth => exact (Bool.and_eq_true_iff.1 hdepth).1

/-! ## The second run -/

/-- A mapped type whose rule puts a union into a union. -/
def mappedUnion : Library where
  name := "lib"
  deps := []
  file := File.ofMembers "lib"
    [.iface ⟨{}, true, "T", [], [], [.ofType "a" (.union 0 [.number, .boolean])], .noPath⟩,
     .typeAlias ⟨{}, true, "M", [], .object {} [.mapped ⟨{}, .default, .noop, "K", .strLit "a", none, .noop,
       .union 0 [.lookup 0 (.reference ["T"] []) (.reference ["K"] []), .string]⟩], .noPath⟩]

-- Writing out the mapped type leaves a union in a union, which only the second run takes out. With the
-- memory on, the terms would not reduce.
example :
    let o : Options := { enableScopeCache := false }
    ((compile o mappedUnion).toOption.any fun out =>
      (compile o (mappedUnion.withFile out.file)).toOption.any fun again =>
        again.changedBy == [.simplifyTypes] && !(again.file == out.file)) = true := by
  decide +kernel

end Ambient
