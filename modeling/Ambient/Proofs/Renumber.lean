import Ambient.Proofs.Equal
import Ambient.Proofs.Relabel
import Mathlib.Data.List.Forall2

/-!
# Numbering a tree again

Numbers do not matter for what a tree says, and the numbers that a tree gets do not depend on those
that it had. So a file that was numbered says what it said before, and numbering it again from the same
number gives it back (`File.number_same`, `File.number_number`).
-/

namespace Ambient

/-- Numbered from any number on, `a` says what it said before, and numbering it again gives it back. -/
def Restores {α : Type} (number : α → StateM NodeId α) (same : α → α → Bool) (a : α) : Prop :=
  ∀ n, same ((number a).run n).1 a = true ∧ (number ((number a).run n).1).run n = (number a).run n

/-! ## How numbers are handed out -/

theorem numbering_bind {α β : Type} (x : StateM NodeId α) (f : α → StateM NodeId β) (n : NodeId) :
    (x >>= f).run n = (f (x.run n).1).run (x.run n).2 := rfl

theorem numbering_pure {α : Type} (a : α) (n : NodeId) :
    (pure a : StateM NodeId α).run n = (a, n) := rfl

theorem numbering_next (i n : NodeId) : (nextId i).run n = (n, n + 1) := rfl

theorem numbering_info (i : NodeInfo) (n : NodeId) :
    (i.renumber nextId).run n = ({ i with id := n }, n + 1) := rfl

/-! ## Types and members -/

theorem restores_all : (∀ t, Restores (Ty.renumber nextId) Ty.same t) ∧
    (∀ p, Restores (TypeParam.renumber nextId) TypeParam.same p) ∧
    (∀ t, Restores (Ty.renumberOption nextId) Ty.sameOption t) ∧
    (∀ es, Restores (TupleElem.renumberList nextId) TupleElem.sameList es) ∧
    (∀ s, Restores (Signature.renumber nextId) Signature.same s) ∧
    (∀ ps, Restores (Param.renumberList nextId) Param.sameList ps) ∧
    (∀ ps, Restores (TypeParam.renumberList nextId) TypeParam.sameList ps) ∧
    (∀ ms, Restores (Member.renumberList nextId) Member.sameList ms) ∧
    (∀ m, Restores (Member.renumber nextId) Member.same m) ∧
    (∀ e, Restores (Expr.renumberOption nextId) Expr.sameOption e) ∧
    (∀ e, Restores (Expr.renumber nextId) Expr.same e) ∧
    (∀ es, Restores (Expr.renumberList nextId) Expr.sameList es) ∧
    ∀ ts, Restores (Ty.renumberList nextId) Ty.sameList ts := by
  -- by induction on trees: the parts of a tree are numbered one after the other
  apply Ty.renumber.mutual_induct <;> intros <;> intro n <;> simp_all only [Restores,
    Ty.renumber, TypeParam.renumber, Ty.renumberOption, TupleElem.renumberList, Signature.renumber,
    Param.renumberList, TypeParam.renumberList, Member.renumberList, Member.renumber,
    Expr.renumberOption, Expr.renumber, Expr.renumberList, Ty.renumberList, Ty.same, TypeParam.same, Ty.sameOption, TupleElem.sameList, Signature.same, Param.sameList,
    TypeParam.sameList, Member.sameList, Member.same, Expr.sameOption, Expr.same, Expr.sameList,
    Ty.sameList, numbering_bind, numbering_pure, numbering_next, numbering_info, beq_self_eq_true,
    Bool.and_true, and_self]

/-! ## Lists and options that agree -/

section
variable {α : Type} [BEq α]

theorem Restores.list {number : List α → StateM NodeId (List α)} {same : List α → List α → Bool}
    (hleft : ∀ b bs, same [] (b :: bs) = false) (hright : ∀ a as, same (a :: as) [] = false)
    (hcons : ∀ a as b bs, same (a :: as) (b :: bs) = ((a == b) && same as bs)) {as : List α}
    (h : Restores number same as) : Restores number (· == ·) as := by
  have hbeq : ∀ as bs, same as bs = true → (as == bs) = true := by
    intro as
    induction as with
    | nil => rintro (_ | ⟨b, bs⟩) h <;> simp_all
    | cons a as ih => rintro (_ | ⟨b, bs⟩) h <;> simp_all
  exact fun n => ⟨hbeq _ _ (h n).1, (h n).2⟩

theorem Restores.option {number : Option α → StateM NodeId (Option α)} {same : Option α → Option α → Bool}
    (hleft : ∀ b, same none (some b) = false) (hright : ∀ a, same (some a) none = false)
    (hsome : ∀ a b, same (some a) (some b) = (a == b)) {a : Option α} (h : Restores number same a) :
    Restores number (· == ·) a := by
  have hbeq : ∀ a b, same a b = true → (a == b) = true := by
    rintro (_ | a) (_ | b) h <;> simp_all
  exact fun n => ⟨hbeq _ _ (h n).1, (h n).2⟩

end

theorem Ty.restores (t : Ty) : Restores (Ty.renumber nextId) (· == ·) t := restores_all.1 t

theorem Signature.restores (s : Signature) : Restores (Signature.renumber nextId) (· == ·) s :=
  restores_all.2.2.2.2.1 s

theorem Ty.restoresOption (t : Option Ty) : Restores (Ty.renumberOption nextId) (· == ·) t :=
  (restores_all.2.2.1 t).option (by simp [sameOption]) (by simp [sameOption]) fun _ _ => by rw [sameOption]; rfl

theorem Expr.restoresOption (e : Option Expr) : Restores (Expr.renumberOption nextId) (· == ·) e :=
  (restores_all.2.2.2.2.2.2.2.2.2.1 e).option (by simp [sameOption]) (by simp [sameOption]) fun _ _ => by
    rw [sameOption]; rfl

theorem TypeParam.restoresList (ps : List TypeParam) : Restores (TypeParam.renumberList nextId) (· == ·) ps :=
  (restores_all.2.2.2.2.2.2.1 ps).list (by simp [sameList]) (by simp [sameList]) fun _ _ _ _ => by
    rw [sameList]; rfl

theorem Member.restoresList (ms : List Member) : Restores (Member.renumberList nextId) (· == ·) ms :=
  (restores_all.2.2.2.2.2.2.2.1 ms).list (by simp [sameList]) (by simp [sameList]) fun _ _ _ _ => by
    rw [sameList]; rfl

theorem Ty.restoresList (ts : List Ty) : Restores (Ty.renumberList nextId) (· == ·) ts :=
  (restores_all.2.2.2.2.2.2.2.2.2.2.2.2 ts).list (by simp [sameList]) (by simp [sameList]) fun _ _ _ _ => by
    rw [sameList]; rfl

/-! ## Declarations -/

theorem EnumMember.restoresList (ms : List EnumMember) :
    Restores (fun ms => ms.mapM (EnumMember.renumber nextId)) (· == ·) ms := by
  intro n
  induction ms generalizing n with
  | nil => exact ⟨rfl, rfl⟩
  | cons m ms ih =>
    simp only [List.mapM_cons, EnumMember.renumber, numbering_bind, numbering_pure, Expr.restoresOption _ _, ih _,
      List.cons_beq_cons, Bool.and_true, and_true]
    show EnumMember.same _ _ = true
    simp only [EnumMember.same, beq_self_eq_true, Expr.restoresOption _ _, Bool.and_true]

theorem Decl.restores_all : (∀ d, Restores (Decl.renumber nextId) Decl.same d) ∧
    (∀ x, Restores (Exportee.renumber nextId) Exportee.same x) ∧
    ∀ ds, Restores (Decl.renumberList nextId) Decl.sameList ds := by
  apply Decl.renumber.mutual_induct <;> intros <;> intro n <;> simp_all only [Restores,
    Decl.renumber, Exportee.renumber, Decl.renumberList, Decl.same, Exportee.same, Decl.sameList,
    SpaceHead.same, AugmentHead.same, GlobalHead.same, ExportHead.same, ImportDecl.same, ClassDecl.renumber,
    ClassDecl.same, InterfaceDecl.renumber, InterfaceDecl.same, EnumDecl.renumber, EnumDecl.same,
    VarDecl.renumber, VarDecl.same, FunctionDecl.renumber, FunctionDecl.same, AliasDecl.renumber,
    AliasDecl.same, Ty.restores _ _, Signature.restores _ _, Ty.restoresOption _ _, Expr.restoresOption _ _,
    TypeParam.restoresList _ _, Member.restoresList _ _, Ty.restoresList _ _, EnumMember.restoresList _ _,
    numbering_bind, numbering_pure, numbering_next, numbering_info, beq_self_eq_true, Bool.and_true, and_self]

theorem Decl.restoresList (ds : List Decl) : Restores (Decl.renumberList nextId) (· == ·) ds :=
  (Decl.restores_all.2.2 ds).list (by simp [sameList]) (by simp [sameList]) fun _ _ _ _ => by
    rw [sameList]; rfl

theorem File.restores (f : File) : Restores (File.renumber nextId) File.same f := by
  intro n
  simp only [File.renumber, File.same, numbering_bind, numbering_pure, numbering_info, beq_self_eq_true,
    Decl.restoresList _ _, Bool.and_true, and_true]

/-- The second node is the first with the numbers that it gets from some number on. -/
def Node.Relabelled (n n' : Node) : Prop := ∃ k, n' = ((n.renumber nextId).run k).1

abbrev RelabelledAll (ns ns' : List Node) : Prop := List.Forall₂ Node.Relabelled ns ns'

/-- The nodes in a numbered initialiser are numbered, and all else is as it was. -/
theorem Kind.relabelled (k : Kind) (a : k.Of) (n : NodeId) :
    k.Like a ((k.renumber nextId a).run n).1 ∧
      RelabelledAll (k.nodes a) (k.nodes ((k.renumber nextId a).run n).1) := by
  induction k, a using Kind.induct generalizing n with
  | step k a ih =>
  cases k with
  | expr =>
    obtain ⟨ns, hfill, hns⟩ := Form.numbered (R := fun _ _ => RelabelledAll) (fun _ => .nil)
      (fun h h' => List.rel_append h h') ih n
    obtain ⟨hbare, rfl⟩ := Expr.of_filled hfill
    rw [Kind.nodes_form] at hns
    rw [Kind.renumber_eq]
    exact ⟨hbare, hns⟩
  | _ => exact ⟨trivial, .cons ⟨n, rfl⟩ .nil⟩

theorem Kind.relabelled_inner (k : Kind) (a : k.Of) (n : NodeId) :
    RelabelledAll (k.inner a) (k.inner ((k.renumber nextId a).run n).1) := by
  have hparts : ∀ (b : k.Of) (n : NodeId), k.inner b = k.inner a →
      RelabelledAll (k.inner a) (k.inner (((k.form b).traverse (Kind.renumber nextId)).run n).1) := by
    intro b n hb
    obtain ⟨ns, hfill, hns⟩ := Form.numbered (R := fun _ _ => RelabelledAll) (fun _ => .nil)
      (fun h h' => List.rel_append h h') (Form.all_of_forall Kind.relabelled (k.form b)) n
    rwa [k.nodes_form, hb, Kind.inner_of_filled hfill] at hns
  rw [Kind.renumber_eq, Kind.relabel]
  split
  · exact hparts _ _ (k.inner_withId a n)
  · exact hparts a n rfl

/-- **The nodes directly inside a numbered node** are those inside the node, numbered. -/
theorem Node.Relabelled.children {n n' : Node} (h : n.Relabelled n') :
    RelabelledAll n.children n'.children := by
  obtain ⟨i, rfl⟩ := h
  cases n with
  | file f => exact Kind.relabelled_inner .file f i
  | decl d => exact Kind.relabelled_inner .decl d i
  | member m => exact Kind.relabelled_inner .member m i
  | ty t => exact Kind.relabelled_inner .ty t i
  | sig s => exact Kind.relabelled_inner .sig s i
  | param p => exact Kind.relabelled_inner .param p i
  | tparam p => exact Kind.relabelled_inner .tparam p i

end Ambient
