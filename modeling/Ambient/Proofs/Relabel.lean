import Ambient.Proofs.Rebuild
import Ambient.Tree.Number

/-!
# Renumbering part by part

To renumber a thing is to give it a new identity of its own (`Kind.relabel`) and then to renumber all that
it is put together from (`Kind.renumber_eq`). What holds of numbered trees follows from what holds of the
parts.
-/

namespace Ambient

open Form

/-! ## Doing something to each part -/

section
variable {m : Type → Type} [Monad m] {α β : Type}

/-- The value put together from what `act` makes of the parts, one after the other. -/
def Form.traverse (act : (k : Kind) → k.Of → m k.Of) {α : Type} : Form α → m α
  | .pure a => Pure.pure a
  | .one k a => act k a
  | .map f x => do
    let a ← x.traverse act
    Pure.pure (f a)
  | .ap f x => do
    let g ← f.traverse act
    let a ← x.traverse act
    Pure.pure (g a)

variable [LawfulMonad m] {act : (k : Kind) → k.Of → m k.Of}

theorem Form.traverse_each {f : α → Form β} {w : List α → m (List β)} (hnil : w [] = Pure.pure [])
    (hcons : ∀ a as, w (a :: as) = do
      let b ← (f a).traverse act
      let bs ← w as
      Pure.pure (b :: bs)) (as : List α) : w as = (each f as).traverse act := by
  induction as with
  | nil => exact hnil
  | cons a as ih => simp only [each, Form.traverse, hcons, ih, bind_assoc, pure_bind]

end

/-! ## Identities -/

/-- The type with the identity `i` and the same parts. -/
def Ty.withId (i : NodeId) : Ty → Ty
  | .ref j x ts => .ref { j with id := i } x ts
  | .object j ms => .object { j with id := i } ms
  | .literal _ v => .literal i v
  | .constructor _ a s => .constructor i a s
  | .tuple _ es => .tuple i es
  | .query _ x => .query i x
  | .repeated _ t => .repeated i t
  | .keyOf _ t => .keyOf i t
  | .lookup _ t k => .lookup i t k
  | .union _ ts => .union i ts
  | .intersect _ ts => .intersect i ts
  | .conditional _ p t e => .conditional i p t e
  | .extending _ t b => .extending i t b
  | .is _ x t => .is i x t
  | t => t

def Member.withId (i : NodeId) : Member → Member
  | .call x => .call { x with info := { x.info with id := i } }
  | .ctor x => .ctor { x with info := { x.info with id := i } }
  | .function x => .function { x with info := { x.info with id := i } }
  | .property x => .property { x with info := { x.info with id := i } }
  | .index x => .index { x with info := { x.info with id := i } }
  | .mapped x => .mapped { x with info := { x.info with id := i } }

def Decl.withId (i : NodeId) : Decl → Decl
  | .space h ms => .space { h with info := { h.info with id := i } } ms
  | .module h ms => .module { h with info := { h.info with id := i } } ms
  | .augmentation h ms => .augmentation { h with info := { h.info with id := i } } ms
  | .global h ms => .global { h with info := { h.info with id := i } } ms
  | .cls c => .cls { c with info := { c.info with id := i } }
  | .iface x => .iface { x with info := { x.info with id := i } }
  | .enum e => .enum { e with info := { e.info with id := i } }
  | .var v => .var { v with info := { v.info with id := i } }
  | .function g => .function { g with info := { g.info with id := i } }
  | .typeAlias a => .typeAlias { a with info := { a.info with id := i } }
  | .exports h x => .exports { h with info := { h.info with id := i } } x
  | .imports x => .imports { x with id := i }
  | .exportAs e => .exportAs { e with id := i }

/-- The thing with the identity `i`, if it has one of its own, and the same parts. -/
def Kind.withId (i : NodeId) : (k : Kind) → k.Of → k.Of
  | .file, x => { x with info := { x.info with id := i } }
  | .decl, d => d.withId i
  | .member, x => x.withId i
  | .ty, t => t.withId i
  | .sig, s => { s with info := { s.info with id := i } }
  | .param, p => { p with info := { p.info with id := i } }
  | .tparam, p => { p with info := { p.info with id := i } }
  | .expr, e => e

/-- The identity that a thing does not share with its one part. -/
def Kind.ownId? : (k : Kind) → k.Of → Option NodeId
  | .ty, .function _ | .ty, .infer _ | .ty, .this | .expr, _ => none
  | .file, x => (Node.file x).id
  | .decl, d => (Node.decl d).id
  | .member, x => (Node.member x).id
  | .ty, t => t.id
  | .sig, s => s.info.id
  | .param, p => p.info.id
  | .tparam, p => p.info.id

theorem Kind.withId_of_none {k : Kind} {a : k.Of} (h : k.ownId? a = none) (i : NodeId) :
    k.withId i a = a := by
  cases k with
  | ty => cases a <;> first | rfl | cases h
  | expr => rfl
  | _ => cases h

theorem Kind.withId_of_some {k : Kind} {a : k.Of} {i : NodeId} (h : k.ownId? a = some i) :
    k.withId i a = a := by
  cases k with
  | decl => cases a <;> cases h <;> rfl
  | member =>
    rcases a with ⟨_, _, _⟩ | ⟨_, _, _⟩ | ⟨_, _, _, _, _, _, _⟩ | ⟨_, _, _, _, _, _, _⟩ |
      ⟨_, _, _, _, _⟩ | ⟨_, _, _, _, _, _, _, _⟩ <;> cases h <;> rfl
  | ty => cases a <;> cases h <;> rfl
  | sig | param | tparam =>
    cases a
    cases h
    rfl
  | file => cases h; rfl
  | expr => rfl

theorem Kind.inner_withId (k : Kind) (a : k.Of) (i : NodeId) : k.inner (k.withId i a) = k.inner a := by
  cases k with
  | decl =>
    cases a with
    | exports h x => cases x <;> rfl
    | _ => rfl
  | member => rcases a with _ | _ | _ | _ | ⟨_, _, _, _ | _, _⟩ | _ <;> rfl
  | ty => cases a <;> rfl
  | _ => rfl

theorem Kind.all_withId {P : (k : Kind) → k.Of → Prop} {k : Kind} {a : k.Of} (h : (k.form a).All P)
    (i : NodeId) : (k.form (k.withId i a)).All P := by
  cases k with
  | decl =>
    cases a with
    | exports x e => cases e <;> exact h
    | _ => exact h
  | member =>
    -- The records of members are in a mutual block, so they have to be taken apart.
    rcases a with ⟨_, _, _⟩ | ⟨_, _, _⟩ | ⟨_, _, _, _, _, _, _⟩ | ⟨_, _, _, _, _, _, _⟩ |
      ⟨_, _, _, _ | _, _⟩ | ⟨_, _, _, _, _, _, _, _⟩ <;> exact h
  | ty => cases a <;> exact h
  | _ => exact h

section
variable {m : Type → Type} [Monad m] (f : NodeId → m NodeId)

/-- The thing with the identity that `f` makes of its own. -/
def Kind.relabel (k : Kind) (a : k.Of) : m k.Of :=
  match k.ownId? a with
  | some i => return k.withId (← f i) a
  | none => return a

def Kind.renumber : (k : Kind) → k.Of → m k.Of
  | .file => File.renumber f
  | .decl => Decl.renumber f
  | .member => Member.renumber f
  | .ty => Ty.renumber f
  | .sig => Signature.renumber f
  | .param => Param.renumber f
  | .tparam => TypeParam.renumber f
  | .expr => Expr.renumber f

theorem Ty.renumberOption_eq (t : Option Ty) :
    Ty.renumberOption f t = (opt (one .ty) t).traverse (Kind.renumber f) := by
  cases t <;> rfl

theorem Expr.renumberOption_eq (e : Option Expr) :
    Expr.renumberOption f e = (opt (one .expr) e).traverse (Kind.renumber f) := by
  cases e <;> rfl

variable [LawfulMonad m]

theorem Ty.renumberList_eq (ts : List Ty) :
    Ty.renumberList f ts = (each (one .ty) ts).traverse (Kind.renumber f) :=
  traverse_each (w := Ty.renumberList f) rfl (fun _ _ => rfl) ts

theorem TypeParam.renumberList_eq (ps : List TypeParam) :
    TypeParam.renumberList f ps = (each (one .tparam) ps).traverse (Kind.renumber f) :=
  traverse_each (w := TypeParam.renumberList f) rfl (fun _ _ => rfl) ps

theorem Member.renumberList_eq (ms : List Member) :
    Member.renumberList f ms = (each (one .member) ms).traverse (Kind.renumber f) :=
  traverse_each (w := Member.renumberList f) rfl (fun _ _ => rfl) ms

theorem Expr.renumberList_eq (es : List Expr) :
    Expr.renumberList f es = (each (one .expr) es).traverse (Kind.renumber f) :=
  traverse_each (w := Expr.renumberList f) rfl (fun _ _ => rfl) es

theorem Decl.renumberList_eq (ds : List Decl) :
    Decl.renumberList f ds = (each (one .decl) ds).traverse (Kind.renumber f) :=
  traverse_each (w := Decl.renumberList f) rfl (fun _ _ => rfl) ds

theorem Param.renumberList_eq (ps : List Param) :
    Param.renumberList f ps = (each (one .param) ps).traverse (Kind.renumber f) :=
  traverse_each (w := Param.renumberList f) rfl (fun ⟨i, x, t⟩ ps => by
    simp only [Param.renumberList, Form.traverse, Kind.renumber, Param.renumber, bind_assoc, pure_bind]) ps

theorem TupleElem.renumberList_eq (es : List TupleElem) :
    TupleElem.renumberList f es = (each TupleElem.form es).traverse (Kind.renumber f) :=
  traverse_each (w := TupleElem.renumberList f) rfl (fun ⟨l, t⟩ es => by
    simp only [TupleElem.renumberList, TupleElem.form, Form.traverse, Kind.renumber, bind_assoc, pure_bind]) es

theorem EnumMember.renumberList_eq (xs : List EnumMember) :
    xs.mapM (EnumMember.renumber f) = (each EnumMember.form xs).traverse (Kind.renumber f) := by
  refine traverse_each List.mapM_nil (fun x xs => ?_) xs
  simp only [List.mapM_cons, EnumMember.renumber, EnumMember.form, Form.traverse, Expr.renumberOption_eq, bind_assoc,
    pure_bind]

/-- **To renumber a thing** is to give it another identity and then to renumber its parts. -/
theorem Kind.renumber_eq (k : Kind) (a : k.Of) :
    k.renumber f a = k.relabel f a >>= fun b => (k.form b).traverse (Kind.renumber f) := by
  simp only [Kind.renumber, Kind.relabel]
  cases k with
  | file =>
    simp only [ownId?, withId, File.renumber, NodeInfo.renumber, Kind.form, File.form, Form.traverse,
      Decl.renumberList_eq, bind_assoc, pure_bind]
    rfl
  | decl =>
    cases a with
    | exports h x =>
      cases x <;> simp only [ownId?, withId, Decl.withId, Decl.renumber, Exportee.renumber, NodeInfo.renumber,
        Kind.form, Decl.form, Form.traverse, bind_assoc, pure_bind] <;> rfl
    | _ =>
      simp only [ownId?, withId, Decl.withId, Decl.renumber, NodeInfo.renumber, Kind.form, Decl.form, Form.traverse,
        ClassDecl.renumber, InterfaceDecl.renumber, EnumDecl.renumber, VarDecl.renumber,
        FunctionDecl.renumber, AliasDecl.renumber, Decl.renumberList_eq, Ty.renumberList_eq,
        Ty.renumberOption_eq, Expr.renumberOption_eq, TypeParam.renumberList_eq, Member.renumberList_eq,
        EnumMember.renumberList_eq, bind_assoc, pure_bind]
      rfl
  | member =>
    dsimp only
    unfold Member.renumber
    split <;> simp only [ownId?, withId, Member.withId, NodeInfo.renumber, Kind.form, Member.form, Form.traverse,
      Ty.renumberOption_eq, Expr.renumberOption_eq, Kind.renumber, bind_assoc, pure_bind] <;> rfl
  | ty =>
    cases a <;> simp only [ownId?, withId, Ty.withId, Ty.id, Ty.renumber, NodeInfo.renumber, Kind.form, Ty.form,
      Form.traverse, Ty.renumberList_eq, Member.renumberList_eq, TupleElem.renumberList_eq, Kind.renumber,
      bind_assoc, pure_bind]
  | sig | param | tparam =>
    obtain ⟨⟩ := a
    simp only [ownId?, withId, Signature.renumber, Param.renumber, TypeParam.renumber, NodeInfo.renumber,
      Kind.form, Signature.form, Param.form, TypeParam.form, Form.traverse, TypeParam.renumberList_eq,
      Param.renumberList_eq, Ty.renumberOption_eq, bind_assoc, pure_bind]
  | expr =>
    cases a <;> simp only [ownId?, Expr.renumber, Kind.form, Expr.form, Form.traverse, Expr.renumberList_eq,
      Kind.renumber, bind_assoc, pure_bind]

end

/-! ## Numbers one after the other -/

/-- **What holds of the nodes of numbered parts**, from the first number to the last, holds of the nodes of
what they are put together to. -/
theorem Form.numbered {R : NodeId → NodeId → List Node → List Node → Prop} (hnil : ∀ n, R n n [] [])
    (happ : ∀ {n₁ n₂ n₃ ns ns' ms ms'}, R n₁ n₂ ns ns' → R n₂ n₃ ms ms' → R n₁ n₃ (ns ++ ms) (ns' ++ ms'))
    {α : Type} {x : Form α} (hx : x.All fun k a => ∀ n, k.Like a ((k.renumber nextId a).run n).1 ∧
      R n ((k.renumber nextId a).run n).2 (k.nodes a) (k.nodes ((k.renumber nextId a).run n).1)) (n : NodeId) :
    ∃ ns, x.Filled ns ((x.traverse (Kind.renumber nextId)).run n).1 ∧
      R n ((x.traverse (Kind.renumber nextId)).run n).2 x.nodes ns := by
  induction x generalizing n with
  | pure a => exact ⟨[], ⟨rfl, rfl⟩, hnil n⟩
  | one k a => exact ⟨_, ⟨rfl, (hx n).1⟩, (hx n).2⟩
  | map f x ih =>
    obtain ⟨ns, hfill, hR⟩ := ih hx n
    exact ⟨ns, ⟨_, hfill, rfl⟩, hR⟩
  | ap f x ihf ihx =>
    obtain ⟨ns, hf, hR⟩ := ihf hx.1 n
    obtain ⟨ms, ha, hR'⟩ := ihx hx.2 ((f.traverse (Kind.renumber nextId)).run n).2
    exact ⟨ns ++ ms, ⟨ns, ms, _, _, hf, ha, rfl, rfl⟩, happ hR hR'⟩

end Ambient
