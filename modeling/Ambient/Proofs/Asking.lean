import Ambient.Proofs.Library
import Ambient.Proofs.Memory
import Ambient.Proofs.Rebuild

/-!
# Asking in the middle of a step

A step asks for names, members, keys and constructors wherever its walk comes by, all with one memory.
The scopes of a library are a territory for these questions too (`Root.searches`), whose numbers tell
them apart, so each question is answered and leaves the memory faithful (`Query.run_asking`). What may
be answered so is `Realm.MayAnswer`.
-/

namespace Ambient

/-! ## The territory of all questions -/

/-- The types whose keys are asked for inside the node. -/
def Node.keySources : Node → List Ty
  | .decl (.typeAlias a) => [a.target]
  | .ty (.object _ [.mapped m]) => [m.source]
  | _ => []

/-- The territory of all scopes of a library and of those it depends on, for questions of any kind. -/
def Root.searches (root : Root) (f : File) : Territory :=
  { root.territory f with
    ty := fun s t => root.Enters f s ∧ ∃ n u, s.current? = some n ∧ u ∈ n.keySources ∧ t ∈ u.branches
    plain := False
    followed := fun _ _ _ _ _ _ _ => trivial
    target := fun _ _ _ hs hd =>
      ⟨hs.held hd, _, _, rfl, List.mem_singleton_self _, Ty.self_mem_branches _⟩
    part := fun _ _ _ _ _ ⟨hs, n, u, hn, hu, ht⟩ hmem =>
      ⟨hs, n, u, hn, hu, Ty.branch_mem_branches u ht hmem⟩
    tyName := fun _ _ _ _ _ _ => trivial }

theorem Node.Numbered.keySources {n : Node} (h : n.Numbered) {u : Ty} (hu : u ∈ n.keySources) :
    (u.branches.map Node.ty).Pairwise Distinct := by
  have hentry : ∀ {n : Node}, n.Numbered → .ty u ∈ n.entries →
      (u.branches.map Node.ty).Pairwise Distinct := by
    rintro n ⟨hdist, -⟩ hmem
    have hsub := (List.singleton_sublist.2 hmem).flatMap Node.branches
    rw [List.flatMap_singleton] at hsub
    exact hdist.sublist hsub
  unfold Node.keySources at hu
  split at hu
  · obtain rfl := List.mem_singleton.1 hu
    exact hentry h (List.mem_append_right _ (.head _))
  · rename_i m
    obtain rfl := List.mem_singleton.1 hu
    obtain ⟨-, -, hin⟩ := h
    exact hentry (hin (.member (.mapped m)) (.head _)) (.head _)
  · cases hu

/-- **The numbers tell all questions apart.** -/
theorem Root.Numbered.searches {root : Root} {f : File} (hnum : root.Numbered f) :
    (root.searches f).Numbered where
  scope := hnum.territory.scope
  decl := hnum.territory.decl
  ty := by
    rintro s t t' ⟨hs, n, u, hn, hu, ht⟩ ⟨-, n', u', hn', hu', ht'⟩ hid
    cases hn.symm.trans hn'
    have hsame : u' = u := by
      unfold Node.keySources at hu hu'
      split at hu <;> simp_all
    subst hsame
    have hdist := (hnum.current hs hn).keySources hu
    exact Node.ty.inj (Node.eq_of_num hdist (List.mem_map_of_mem ht) (List.mem_map_of_mem ht') hid)

/-! ## Answers in the middle of a step -/

/-- The query may be answered so by a step that has asked other questions of the realm before. -/
def Realm.MayAnswer (D : Realm) (Q : Query) (a : Q.Answer) : Prop :=
  ∃ σ σ', σ.Faithful D ∧ (Q.run []).run σ = .ok (a, σ')

/-- Computations that ask questions of the realm and come to an end. -/
def asking (D : Realm) : Logic Resolve where
  World := Unit
  le _ _ := True
  refl _ := trivial
  trans _ _ := trivial
  ends _ x P := ∀ σ, σ.Faithful D → ∃ a σ', x.run σ = .ok (a, σ') ∧ σ'.Faithful D ∧ P a ()
  pure h σ hσ := ⟨_, σ, rfl, hσ, h⟩
  bind hx hf σ hσ := by
    obtain ⟨a, σ₁, ha, hσ₁, hP⟩ := hx σ hσ
    obtain ⟨b, σ₂, hb, hσ₂, hQ⟩ := hf a () trivial hP σ₁ hσ₁
    refine ⟨b, σ₂, ?_, hσ₂, hQ⟩
    rw [StateT.run_bind, ha]
    exact hb

/-- Computations that ask what the steps ask in the scopes of a library. -/
abbrev Root.seeks (root : Root) (f : File) : Logic Resolve := asking (root.searches f).realm

section
variable {D : Realm} {w : (asking D).World}

/-- **A query is answered** as it may be. -/
theorem Query.run_asking {Q : Query} (hQ : Q.In D) :
    (asking D).ends w (Q.run []) fun a _ => D.MayAnswer Q a := by
  intro σ hσ
  obtain ⟨⟨⟨a, σ'⟩, hrun, -⟩, -⟩ := Query.ends_of_faithful hQ [] hσ
  have hafter := hrun
  rw [Query.run_eq] at hafter
  obtain ⟨-, hafter⟩ := (answerWithin_after D Q.bound []).run hQ hσ hafter
  exact ⟨a, σ', hrun, hafter.faithful, σ, σ', hσ, hrun⟩

theorem afresh_asking {α : Type} {x : Resolve α} {P : α → Unit → Prop} (hx : (asking D).ends w x P) :
    (asking D).ends w (Resolve.afresh x) P := by
  intro σ hσ
  obtain ⟨a, σ', hrun, hσ', hP⟩ := hx { σ with cuts := 0 } (hσ.recount 0)
  refine ⟨a, { σ' with cuts := σ.cuts }, ?_, hσ'.recount _, hP⟩
  rw [afresh_run, hrun]
  rfl

end

end Ambient
