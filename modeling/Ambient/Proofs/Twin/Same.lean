import Ambient.Proofs.Twin.Basic
import Ambient.Tree.Equal

/-!
# How trees are compared

What is said of two trees of any kind by going along their comparison (`Comparisons`).
-/

namespace Ambient

/-- Identities and comments may differ at will. -/
def Leeway.any : Leeway where
  id _ _ := True
  comments _ _ := True
  hints _ _ := True

variable {L : Leeway}

/-- What `P` says of two trees, from how trees of that kind are compared and when they are twins, it says
of any two trees of one kind. -/
def Comparisons (L : Leeway)
    (P : {α : Type} → (same : α → α → Bool) → (twin : α → α → Prop) → α → α → Prop) : Prop :=
  (∀ t u, P Ty.same (Ty.Twin L) t u) ∧ (∀ p q, P TypeParam.same (TypeParam.Twin L) p q) ∧
    (∀ t u, P Ty.sameOption (Option.Rel (Ty.Twin L)) t u) ∧
    (∀ es fs, P TupleElem.sameList (List.Forall₂ (TupleElem.Twin L)) es fs) ∧
    (∀ s r, P Signature.same (Signature.Twin L) s r) ∧
    (∀ ps qs, P Param.sameList (List.Forall₂ (Param.Twin L)) ps qs) ∧
    (∀ ps qs, P TypeParam.sameList (List.Forall₂ (TypeParam.Twin L)) ps qs) ∧
    (∀ ms ns, P Member.sameList (List.Forall₂ (Member.Twin L)) ms ns) ∧
    (∀ m n, P Member.same (Member.Twin L) m n) ∧
    (∀ e f, P Expr.sameOption (Option.Rel (Expr.Twin L)) e f) ∧
    (∀ e f, P Expr.same (Expr.Twin L) e f) ∧
    (∀ es fs, P Expr.sameList (List.Forall₂ (Expr.Twin L)) es fs) ∧
    ∀ ts us, P Ty.sameList (List.Forall₂ (Ty.Twin L)) ts us

-- The three lemmas go along the comparison: the parts of two trees that are compared are compared.

theorem twin_of_same : Comparisons .any fun same twin a b => same a b = true → twin a b := by
  apply Ty.same.mutual_induct <;> intros <;> beta_reduce <;> intro h <;>
    simp only [Ty.same, TypeParam.same, Ty.sameOption, TupleElem.sameList, Signature.same,
      Param.sameList, TypeParam.sameList, Member.sameList, Member.same, Expr.sameOption, Expr.same,
      Expr.sameList, Ty.sameList, Bool.and_eq_true, beq_iff_eq, Bool.false_eq_true] at h
  all_goals
    try casesm* _ ∧ _
    subst_vars
    repeat' first | exact trivial | exact ‹_ → _› ‹_› | constructor

theorem same_symm : Comparisons L fun same _ a b => same a b = true → same b a = true := by
  apply Ty.same.mutual_induct <;>
    simp +contextual only [Ty.same, TypeParam.same, Ty.sameOption, TupleElem.sameList,
      Signature.same, Param.sameList, TypeParam.sameList, Member.sameList, Member.same,
      Expr.sameOption, Expr.same, Expr.sameList, Ty.sameList, Bool.and_eq_true, beq_iff_eq,
      Bool.false_eq_true, implies_true, and_self]

theorem same_of_same_twin : Comparisons L fun same twin a b =>
    same a b = true → ∀ c, twin b c ∨ twin c b → same a c = true := by
  apply Ty.same.mutual_induct <;> intros <;> beta_reduce <;> intro h c hc <;>
    simp only [Ty.same, TypeParam.same, Ty.sameOption, TupleElem.sameList, Signature.same,
      Param.sameList, TypeParam.sameList, Member.sameList, Member.same, Expr.sameOption, Expr.same,
      Expr.sameList, Ty.sameList, Bool.and_eq_true, beq_iff_eq, Bool.false_eq_true] at h
  -- elements of tuples and parameters are compared as parts of their lists
  case case24 => rcases hc with ⟨- | ⟨⟨_⟩, _⟩⟩ | ⟨- | ⟨⟨_⟩, _⟩⟩ <;> simp_all [TupleElem.sameList]
  case case28 => rcases hc with ⟨- | ⟨⟨_⟩, _⟩⟩ | ⟨- | ⟨⟨_⟩, _⟩⟩ <;> simp_all [Param.sameList]
  all_goals
    rcases hc with hc | hc <;> cases hc <;>
      simp_all [Ty.same, TypeParam.same, Ty.sameOption, TupleElem.sameList, Signature.same,
        Param.sameList, TypeParam.sameList, Member.sameList, Member.same, Expr.sameOption, Expr.same,
        Expr.sameList, Ty.sameList]

section
variable {P : {α : Type} → (α → α → Bool) → (α → α → Prop) → α → α → Prop}

theorem Comparisons.sig (h : Comparisons L P) (s r : Signature) :
    P Signature.same (Signature.Twin L) s r := h.2.2.2.2.1 s r

theorem Comparisons.member (h : Comparisons L P) (m n : Member) : P Member.same (Member.Twin L) m n :=
  h.2.2.2.2.2.2.2.2.1 m n

theorem Comparisons.expr (h : Comparisons L P) (e f : Expr) : P Expr.same (Expr.Twin L) e f :=
  h.2.2.2.2.2.2.2.2.2.2.1 e f

end

end Ambient
