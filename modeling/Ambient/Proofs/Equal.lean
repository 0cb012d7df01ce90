import Ambient.Tree.Equal
import Ambient.Tree.Number

/-!
# Trees that say the same

Every tree says the same as itself, and what says the same has the same names.
-/

namespace Ambient

/-! ## Reflexivity -/

theorem same_self_all : (∀ t : Ty, t.same t = true) ∧ (∀ p : TypeParam, p.same p = true) ∧
    (∀ t, Ty.sameOption t t = true) ∧ (∀ es, TupleElem.sameList es es = true) ∧
    (∀ s : Signature, s.same s = true) ∧ (∀ ps, Param.sameList ps ps = true) ∧
    (∀ ps, TypeParam.sameList ps ps = true) ∧ (∀ ms, Member.sameList ms ms = true) ∧
    (∀ m : Member, m.same m = true) ∧ (∀ e, Expr.sameOption e e = true) ∧
    (∀ e : Expr, e.same e = true) ∧ (∀ es, Expr.sameList es es = true) ∧
    ∀ ts, Ty.sameList ts ts = true := by
  -- by induction on trees
  apply Ty.renumber.mutual_induct <;> intros <;> simp_all only [Ty.same, TypeParam.same,
    Ty.sameOption, TupleElem.sameList, Signature.same, Param.sameList, TypeParam.sameList,
    Member.sameList, Member.same, Expr.sameOption, Expr.same, Expr.sameList, Ty.sameList,
    beq_self_eq_true, Bool.and_self]

theorem Ty.same_self (t : Ty) : t.same t = true := same_self_all.1 t

theorem TypeParam.same_self (p : TypeParam) : p.same p = true := same_self_all.2.1 p

theorem Signature.same_self (s : Signature) : s.same s = true := same_self_all.2.2.2.2.1 s

theorem Member.same_self (m : Member) : m.same m = true := same_self_all.2.2.2.2.2.2.2.2.1 m

theorem Expr.same_self (e : Expr) : e.same e = true := same_self_all.2.2.2.2.2.2.2.2.2.2.1 e

theorem Ty.sameList_self (ts : List Ty) : Ty.sameList ts ts = true :=
  same_self_all.2.2.2.2.2.2.2.2.2.2.2.2 ts

instance : ReflBEq TypeParam := ⟨TypeParam.same_self _⟩

instance : ReflBEq Member := ⟨Member.same_self _⟩

instance : ReflBEq Ty := ⟨Ty.same_self _⟩

instance : ReflBEq Signature := ⟨Signature.same_self _⟩

instance : ReflBEq Expr := ⟨Expr.same_self _⟩

theorem EnumMember.same_self (m : EnumMember) : m.same m = true := by
  simp [EnumMember.same]

instance : ReflBEq EnumMember := ⟨EnumMember.same_self _⟩

theorem Decl.same_self_all : (∀ d : Decl, d.same d = true) ∧ (∀ x : Exportee, x.same x = true) ∧
    ∀ ds, Decl.sameList ds ds = true := by
  apply Decl.renumber.mutual_induct <;> intros <;> simp_all only [Decl.same, Exportee.same, Decl.sameList,
    SpaceHead.same, AugmentHead.same, GlobalHead.same, ClassDecl.same, InterfaceDecl.same, EnumDecl.same,
    VarDecl.same, FunctionDecl.same, AliasDecl.same, ImportDecl.same, ExportHead.same, beq_self_eq_true,
    Bool.and_self]

instance : ReflBEq Decl := ⟨Decl.same_self_all.1 _⟩

/-! ## Names -/

theorem TypeParam.names_of_beq {ps qs : List TypeParam} (h : (ps == qs) = true) :
    ps.map (·.name) = qs.map (·.name) := by
  induction ps generalizing qs with
  | nil =>
    cases qs with
    | nil => rfl
    | cons q qs => cases h
  | cons p ps ih =>
    cases qs with
    | nil => cases h
    | cons q qs =>
      rw [List.cons_beq_cons, Bool.and_eq_true] at h
      have hname : p.name = q.name := by
        obtain ⟨i, x, b, d⟩ := p
        obtain ⟨j, y, c, e⟩ := q
        have hsame : TypeParam.same ⟨i, x, b, d⟩ ⟨j, y, c, e⟩ = true := h.1
        rw [TypeParam.same, Bool.and_eq_true, Bool.and_eq_true] at hsame
        exact eq_of_beq hsame.1.1
      rw [List.map_cons, List.map_cons, hname, ih h.2]

end Ambient
