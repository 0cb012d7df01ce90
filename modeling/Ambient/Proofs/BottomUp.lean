import Ambient.Proofs.Contents
import Ambient.Proofs.Relabel

/-!
# Rewriting every type, innermost first

The plain way to rewrite the types of a tree: take it apart, rewrite what is inside, put it together
again and rewrite the result if it is a type (`File.bottomUp`). It knows nothing of hooks, contexts and
kept nodes.

A walk whose only work is to rewrite types when it leaves them gives the same tree (`Kind.walk_bottomUp`),
although it keeps the nodes that did not change.
-/

namespace Ambient

/-! ## The plain way -/

section
variable (f : Ty → Ty)

mutual

/-- Rewrites the types inside a type, and then the type. -/
def Ty.bottomUp : Ty → Ty
  | .ref i x ts => f (.ref i x (Ty.bottomUpList ts))
  | .literal i v => f (.literal i v)
  | .object i ms => f (.object i (Member.bottomUpList ms))
  | .function s => f (.function s.bottomUp)
  | .constructor i a s => f (.constructor i a s.bottomUp)
  | .tuple i es => f (.tuple i (TupleElem.bottomUpList es))
  | .query i x => f (.query i x)
  | .repeated i t => f (.repeated i t.bottomUp)
  | .keyOf i t => f (.keyOf i t.bottomUp)
  | .lookup i t k => f (.lookup i t.bottomUp k.bottomUp)
  | .this => f .this
  | .union i ts => f (.union i (Ty.bottomUpList ts))
  | .intersect i ts => f (.intersect i (Ty.bottomUpList ts))
  | .conditional i p t e => f (.conditional i p.bottomUp t.bottomUp e.bottomUp)
  | .extending i t b => f (.extending i t.bottomUp b.bottomUp)
  | .infer p => f (.infer p.bottomUp)
  | .is i x t => f (.is i x t.bottomUp)

def Ty.bottomUpList : List Ty → List Ty
  | [] => []
  | t :: ts => t.bottomUp :: Ty.bottomUpList ts

def Ty.bottomUpOption : Option Ty → Option Ty
  | none => none
  | some t => some t.bottomUp

def TupleElem.bottomUpList : List TupleElem → List TupleElem
  | [] => []
  | ⟨l, t⟩ :: es => ⟨l, t.bottomUp⟩ :: TupleElem.bottomUpList es

def TypeParam.bottomUp : TypeParam → TypeParam
  | ⟨i, x, b, d⟩ => ⟨i, x, Ty.bottomUpOption b, Ty.bottomUpOption d⟩

def TypeParam.bottomUpList : List TypeParam → List TypeParam
  | [] => []
  | p :: ps => p.bottomUp :: TypeParam.bottomUpList ps

def Param.bottomUpList : List Param → List Param
  | [] => []
  | ⟨i, x, t⟩ :: ps => ⟨i, x, Ty.bottomUpOption t⟩ :: Param.bottomUpList ps

def Signature.bottomUp : Signature → Signature
  | ⟨i, ps, xs, r⟩ =>
    ⟨i, TypeParam.bottomUpList ps, Param.bottomUpList xs, Ty.bottomUpOption r⟩

def Member.bottomUp : Member → Member
  | .call ⟨i, l, s⟩ => .call ⟨i, l, s.bottomUp⟩
  | .ctor ⟨i, l, s⟩ => .ctor ⟨i, l, s.bottomUp⟩
  | .function ⟨i, l, x, k, s, st, ro⟩ => .function ⟨i, l, x, k, s.bottomUp, st, ro⟩
  | .property ⟨i, l, x, t, e, st, ro⟩ =>
    .property ⟨i, l, x, Ty.bottomUpOption t, Expr.bottomUpOption e, st, ro⟩
  | .index ⟨i, ro, l, .dict x k, v⟩ => .index ⟨i, ro, l, .dict x k.bottomUp, Ty.bottomUpOption v⟩
  | .index ⟨i, ro, l, .single x, v⟩ => .index ⟨i, ro, l, .single x, Ty.bottomUpOption v⟩
  | .mapped ⟨i, l, ro, x, s, a, o, t⟩ =>
    .mapped ⟨i, l, ro, x, s.bottomUp, Ty.bottomUpOption a, o, t.bottomUp⟩

def Member.bottomUpList : List Member → List Member
  | [] => []
  | m :: ms => m.bottomUp :: Member.bottomUpList ms

def Expr.bottomUp : Expr → Expr
  | .ref x => .ref x
  | .literal v => .literal v
  | .call g ps => .call g.bottomUp (Expr.bottomUpList ps)
  | .unary o e => .unary o e.bottomUp
  | .binary a o b => .binary a.bottomUp o b.bottomUp
  | .cast e t => .cast e.bottomUp t.bottomUp
  | .arrayOf e => .arrayOf e.bottomUp

def Expr.bottomUpList : List Expr → List Expr
  | [] => []
  | e :: es => e.bottomUp :: Expr.bottomUpList es

def Expr.bottomUpOption : Option Expr → Option Expr
  | none => none
  | some e => some e.bottomUp

end

def EnumMember.bottomUpList : List EnumMember → List EnumMember
  | [] => []
  | m :: ms => { m with expr := Expr.bottomUpOption f m.expr } :: EnumMember.bottomUpList ms

mutual

def Decl.bottomUp : Decl → Decl
  | .space h ms => .space h (Decl.bottomUpList ms)
  | .module h ms => .module h (Decl.bottomUpList ms)
  | .augmentation h ms => .augmentation h (Decl.bottomUpList ms)
  | .global h ms => .global h (Decl.bottomUpList ms)
  | .cls c => .cls { c with
      tparams := TypeParam.bottomUpList f c.tparams
      parent := Ty.bottomUpOption f c.parent
      implements := Ty.bottomUpList f c.implements
      members := Member.bottomUpList f c.members }
  | .iface i => .iface { i with
      tparams := TypeParam.bottomUpList f i.tparams
      inheritance := Ty.bottomUpList f i.inheritance
      members := Member.bottomUpList f i.members }
  | .enum e => .enum { e with
      members := EnumMember.bottomUpList f e.members
      exportedFrom := Ty.bottomUpOption f e.exportedFrom }
  | .var v => .var { v with tpe := Ty.bottomUpOption f v.tpe, expr := Expr.bottomUpOption f v.expr }
  | .function g => .function { g with sig := g.sig.bottomUp f }
  | .typeAlias a => .typeAlias { a with
      tparams := TypeParam.bottomUpList f a.tparams
      target := a.target.bottomUp f }
  | .imports i => .imports i
  | .exports h x => .exports h x.bottomUp
  | .exportAs e => .exportAs e

def Exportee.bottomUp : Exportee → Exportee
  | .names xs s => .names xs s
  | .inline d => .inline d.bottomUp
  | .star a s => .star a s

def Decl.bottomUpList : List Decl → List Decl
  | [] => []
  | d :: ds => d.bottomUp :: Decl.bottomUpList ds

end

def File.bottomUp (x : File) : File :=
  { x with members := Decl.bottomUpList f x.members }

end

/-! ## The walk that rewrites types -/

/-- What becomes of a type depends on what it says only, and not on which nodes it is made of. -/
def Structural (f : Ty → Ty) : Prop :=
  ∀ t u : Ty, t.contents = u.contents → (f t).contents = (f u).contents

/-- The hooks that do nothing but replace types when they are left. -/
def typeHooks {C : Type} (within : C → Node → C) (g : Ty → Option Ty) : Hooks Id C :=
  { Hooks.idle within with leaveTy := fun _ t => g t }

section
variable (f : Ty → Ty)

def Kind.bottomUp : (k : Kind) → k.Of → k.Of
  | .file, x => x.bottomUp f
  | .decl, d => d.bottomUp f
  | .member, x => x.bottomUp f
  | .ty, t => t.bottomUp f
  | .sig, s => s.bottomUp f
  | .param, p => { p with tpe := Ty.bottomUpOption f p.tpe }
  | .tparam, p => p.bottomUp f
  | .expr, e => e.bottomUp f

/-- What a thing is put together to from its rewritten parts. -/
def Form.bottomUp {α : Type} (x : Form α) : α :=
  Id.run (x.traverse (Kind.bottomUp f))

theorem Form.bottomUp_each {α β : Type} {x : α → Form β} {w : List α → List β} (hnil : w [] = [])
    (hcons : ∀ a as, w (a :: as) = (x a).bottomUp f :: w as) (as : List α) :
    w as = (each x as).bottomUp f :=
  traverse_each (m := Id) hnil hcons as

theorem Ty.bottomUpList_eq (ts : List Ty) : Ty.bottomUpList f ts = (Form.each (.one .ty) ts).bottomUp f :=
  Form.bottomUp_each f rfl (fun _ _ => rfl) ts

theorem Member.bottomUpList_eq (ms : List Member) :
    Member.bottomUpList f ms = (Form.each (.one .member) ms).bottomUp f :=
  Form.bottomUp_each f rfl (fun _ _ => rfl) ms

theorem TypeParam.bottomUpList_eq (ps : List TypeParam) :
    TypeParam.bottomUpList f ps = (Form.each (.one .tparam) ps).bottomUp f :=
  Form.bottomUp_each f rfl (fun _ _ => rfl) ps

theorem Decl.bottomUpList_eq (ds : List Decl) :
    Decl.bottomUpList f ds = (Form.each (.one .decl) ds).bottomUp f :=
  Form.bottomUp_each f rfl (fun _ _ => rfl) ds

theorem Ty.bottomUpOption_eq (t : Option Ty) :
    Ty.bottomUpOption f t = (Form.opt (.one .ty) t).bottomUp f := by
  cases t <;> rfl

theorem Expr.bottomUpOption_eq (e : Option Expr) :
    Expr.bottomUpOption f e = (Form.opt (.one .expr) e).bottomUp f := by
  cases e <;> rfl

/-- **The plain way, part by part**: the parts are rewritten, and then a type. -/
theorem Kind.bottomUp_eq (k : Kind) (a : k.Of) : k.bottomUp f a = match k with
    | .ty => f ((Kind.form .ty a).bottomUp f)
    | k => (k.form a).bottomUp f := by
  cases k with
  | file => exact congrArg (fun ms => { a with members := ms }) (Decl.bottomUpList_eq f _)
  | decl =>
    cases a with
    | exports h x => cases x <;> rfl
    | enum e =>
      have hms := Form.bottomUp_each f (x := EnumMember.form) (w := EnumMember.bottomUpList f) rfl
        (fun _ _ => by rw [EnumMember.bottomUpList, Expr.bottomUpOption_eq]; rfl) e.members
      simp only [Kind.bottomUp, Decl.bottomUp, hms, Ty.bottomUpOption_eq]
      rfl
    | _ =>
      simp only [Kind.bottomUp, Decl.bottomUp, Decl.bottomUpList_eq, TypeParam.bottomUpList_eq,
        Ty.bottomUpOption_eq, Ty.bottomUpList_eq, Member.bottomUpList_eq, Expr.bottomUpOption_eq]
      rfl
  | member =>
    simp only [Kind.bottomUp]
    unfold Member.bottomUp
    split <;> (try simp only [Ty.bottomUpOption_eq, Expr.bottomUpOption_eq]) <;> rfl
  | ty =>
    cases a with
    | tuple i es =>
      have hes := Form.bottomUp_each f (x := TupleElem.form) (w := TupleElem.bottomUpList f) rfl
        (fun ⟨_, _⟩ _ => rfl) es
      simp only [Kind.bottomUp, Ty.bottomUp, hes]
      rfl
    | _ =>
      simp only [Kind.bottomUp, Ty.bottomUp, Ty.bottomUpList_eq, Member.bottomUpList_eq]
      rfl
  | sig =>
    obtain ⟨i, ps, xs, r⟩ := a
    have hxs := Form.bottomUp_each f (x := .one .param) (w := Param.bottomUpList f) rfl
      (fun ⟨_, _, _⟩ _ => rfl) xs
    simp only [Kind.bottomUp, Signature.bottomUp, TypeParam.bottomUpList_eq, hxs, Ty.bottomUpOption_eq]
    rfl
  | param => exact congrArg (fun t => { a with tpe := t }) (Ty.bottomUpOption_eq f _)
  | tparam =>
    obtain ⟨i, x, b, d⟩ := a
    simp only [Kind.bottomUp, TypeParam.bottomUp, Ty.bottomUpOption_eq]
    rfl
  | expr =>
    cases a with
    | call g ps =>
      have hps := Form.bottomUp_each f (x := .one .expr) (w := Expr.bottomUpList f) rfl (fun _ _ => rfl) ps
      simp only [Kind.bottomUp, Expr.bottomUp, hps]
      rfl
    | _ => rfl

end

section
variable {C : Type} {w : C → Node → C} {g : Ty → Option Ty} {c : C}

theorem Form.walk_bottomUp {α : Type} {x : Form α} (hx : x.All fun k a =>
      (Id.run (k.walk (typeHooks w g) c a)).value = k.bottomUp (fun t => (g t).getD t) a) :
    (Id.run (x.walk (typeHooks w g) c)).value = x.bottomUp fun t => (g t).getD t := by
  induction x with
  | pure a => rfl
  | one k a => exact hx
  | map f x ih => exact congrArg f (ih hx)
  | ap f x ihf ihx => exact congr (ihf hx.1) (ihx hx.2)

/-- **The walk that rewrites types gives what the plain way gives.** -/
theorem Kind.walk_bottomUp (k : Kind) (a : k.Of) :
    (Id.run (k.walk (typeHooks w g) c a)).value = k.bottomUp (fun t => (g t).getD t) a := by
  induction k, a using Kind.induct generalizing c with
  | step k a ih =>
  have hform : ∀ {c}, (Id.run ((k.form a).walk (typeHooks w g) c)).value =
      (k.form a).bottomUp fun t => (g t).getD t := Form.walk_bottomUp (ih.mono fun _ _ h => h (c := _))
  rw [Kind.bottomUp_eq]
  cases k with
  | ty =>
    have hrenew : ∀ (e : Edited Ty) {c owner}, (typeHooks w g).renewTy c owner e = pure e := by
      intro e c owner
      unfold Hooks.renewTy
      split <;> rfl
    have hleave : ∀ {c} (e : Edited Ty), (Id.run (e.thenStep ((typeHooks w g).leaveTy c))).value =
        (g e.value).getD e.value :=
      fun e => congrArg Edited.value (e.replace_eq (g e.value))
    have henter : (typeHooks w g).enterTy = fun _ _ => pure none := rfl
    simp only [walk, walkTy_eq, hrenew, henter, Edited.renamed_none, pure_bind]
    exact (hleave _).trans (congrArg (fun t => (g t).getD t) hform)
  | decl =>
    have hrenew : ∀ (d : Decl) (e : Edited Decl) {c owner},
        (typeHooks w g).renewDecl c owner d e = pure e := by
      intro d e c owner
      unfold Hooks.renewDecl
      split
      · rfl
      · split <;> rfl
    simp only [walk, walkDecl_eq, hrenew]
    exact hform
  | file =>
    simp only [walk, walkFile_eq]
    exact hform
  | member | sig | param | tparam =>
    rw [Hooks.Plain.walk_eq {} rfl rfl (by decide)]
    exact hform
  | expr =>
    simp only [walk, walkExpr_eq]
    exact hform

end

end Ambient
