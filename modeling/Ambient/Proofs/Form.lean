import Ambient.Tree.Node
import Ambient.Walk.Basic

/-!
# What things are put together from

A walk comes by things of eight kinds and does the same at each of them: it enters, walks what the thing is
put together from, in the order in which this is written, and leaves. A `Form` says how a thing is put
together, once for all that is proved of walks.

* `Node.children`: the nodes that are walked directly inside a node, in the order of the walk.
* `walkTy_eq` and its like: what a walk does at a thing, by way of its form.
* `Kind.induct`: what holds of a thing if it holds of all that the thing is put together from holds of
  everything.
-/

namespace Ambient

/-! ## The nodes directly inside a node -/

mutual

/-- The types directly inside an initialiser. -/
def Expr.nodes : Expr → List Node
  | .ref _ => []
  | .literal _ => []
  | .call f ps => f.nodes ++ Expr.nodesList ps
  | .unary _ e => e.nodes
  | .binary a _ b => a.nodes ++ b.nodes
  | .cast e t => e.nodes ++ [.ty t]
  | .arrayOf e => e.nodes

def Expr.nodesList : List Expr → List Node
  | [] => []
  | e :: es => e.nodes ++ Expr.nodesList es

end

def Expr.nodesOption : Option Expr → List Node
  | none => []
  | some e => e.nodes

namespace Node

def childrenOfTy : Ty → List Node
  | .ref _ _ ts | .union _ ts | .intersect _ ts => ts.map .ty
  | .object _ ms => ms.map .member
  | .function s | .constructor _ _ s => [.sig s]
  | .tuple _ es => es.map fun e => .ty e.tpe
  | .repeated _ t | .keyOf _ t | .is _ _ t => [.ty t]
  | .lookup _ t k => [.ty t, .ty k]
  | .conditional _ p t e => [.ty p, .ty t, .ty e]
  | .extending _ t b => [.ty t, .ty b]
  | .infer p => [.tparam p]
  | .literal _ _ | .query _ _ | .this => []

def childrenOfMember : Member → List Node
  | .call c | .ctor c => [.sig c.sig]
  | .function m => [.sig m.sig]
  | .property p => p.tpe.toList.map .ty ++ Expr.nodesOption p.expr
  | .index ⟨_, _, _, .dict _ k, v⟩ => .ty k :: v.toList.map .ty
  | .index ⟨_, _, _, .single _, v⟩ => v.toList.map .ty
  | .mapped m => .ty m.source :: m.asName.toList.map .ty ++ [.ty m.target]

def childrenOfDecl : Decl → List Node
  | .space _ ms | .module _ ms | .augmentation _ ms | .global _ ms => ms.map .decl
  | .cls c =>
    c.tparams.map .tparam ++ c.parent.toList.map .ty ++ c.implements.map .ty ++
      c.members.map .member
  | .iface i => i.tparams.map .tparam ++ i.inheritance.map .ty ++ i.members.map .member
  | .enum e =>
    (e.members.flatMap fun m => Expr.nodesOption m.expr) ++ e.exportedFrom.toList.map .ty
  | .var v => v.tpe.toList.map .ty ++ Expr.nodesOption v.expr
  | .function f => [.sig f.sig]
  | .typeAlias a => a.tparams.map .tparam ++ [.ty a.target]
  | .exports _ (.inline d) => [.decl d]
  | .exports _ _ | .imports _ | .exportAs _ => []

/-- The nodes directly inside a node. -/
def children : Node → List Node
  | .file f => f.members.map .decl
  | .decl d => childrenOfDecl d
  | .member m => childrenOfMember m
  | .ty t => childrenOfTy t
  | .sig s => s.tparams.map .tparam ++ s.params.map .param ++ s.result.toList.map .ty
  | .param p => p.tpe.toList.map .ty
  | .tparam p => p.upperBound.toList.map .ty ++ p.default.toList.map .ty

end Node

/-! ## Forms -/

/-- The kinds of things that a walk comes by. -/
inductive Kind
  | file | decl | member | ty | sig | param | tparam | expr
deriving DecidableEq

@[reducible] def Kind.Of : Kind → Type
  | .file => File
  | .decl => Decl
  | .member => Member
  | .ty => Ty
  | .sig => Signature
  | .param => Param
  | .tparam => TypeParam
  | .expr => Expr

/-- How a value is put together from things that a walk comes by. -/
inductive Form : Type → Type 1
  | pure {α : Type} (a : α) : Form α
  | one (k : Kind) (a : k.Of) : Form k.Of
  | map {α β : Type} (f : α → β) (x : Form α) : Form β
  | ap {α β : Type} (f : Form (α → β)) (x : Form α) : Form β

namespace Form

variable {α β : Type}

def each (f : α → Form β) : List α → Form (List β)
  | [] => .pure []
  | a :: as => (Form.map List.cons (f a)).ap (each f as)

def opt (f : α → Form β) : Option α → Form (Option β)
  | none => .pure none
  | some a => .map some (f a)

end Form

open Form

def TupleElem.form (e : TupleElem) : Form TupleElem :=
  (one .ty e.tpe).map (TupleElem.mk e.label)

def Ty.form : Ty → Form Ty
  | .ref i x ts => (each (one .ty) ts).map (Ty.ref i x)
  | .object i ms => (each (one .member) ms).map (Ty.object i)
  | .function s => (one .sig s).map Ty.function
  | .constructor i a s => (one .sig s).map (Ty.constructor i a)
  | .tuple i es => (each TupleElem.form es).map (Ty.tuple i)
  | .repeated i t => (one .ty t).map (Ty.repeated i)
  | .keyOf i t => (one .ty t).map (Ty.keyOf i)
  | .lookup i t k => ((one .ty t).map (Ty.lookup i)).ap (one .ty k)
  | .union i ts => (each (one .ty) ts).map (Ty.union i)
  | .intersect i ts => (each (one .ty) ts).map (Ty.intersect i)
  | .conditional i p t e => (((one .ty p).map (Ty.conditional i)).ap (one .ty t)).ap (one .ty e)
  | .extending i t b => ((one .ty t).map (Ty.extending i)).ap (one .ty b)
  | .infer p => (one .tparam p).map Ty.infer
  | .is i x t => (one .ty t).map (Ty.is i x)
  | .literal i v => .pure (.literal i v)
  | .query i x => .pure (.query i x)
  | .this => .pure .this

def TypeParam.form (p : TypeParam) : Form TypeParam :=
  ((opt (one .ty) p.upperBound).map (TypeParam.mk p.info p.name)).ap (opt (one .ty) p.default)

def Param.form (p : Param) : Form Param :=
  (opt (one .ty) p.tpe).map (Param.mk p.info p.name)

def Signature.form (s : Signature) : Form Signature :=
  (((each (one .tparam) s.tparams).map (Signature.mk s.info)).ap (each (one .param) s.params)).ap
    (opt (one .ty) s.result)

def Member.form : Member → Form Member
  | .call ⟨i, l, s⟩ => (one .sig s).map fun s => .call ⟨i, l, s⟩
  | .ctor ⟨i, l, s⟩ => (one .sig s).map fun s => .ctor ⟨i, l, s⟩
  | .function ⟨i, l, x, k, s, st, ro⟩ => (one .sig s).map fun s => .function ⟨i, l, x, k, s, st, ro⟩
  | .property ⟨i, l, x, t, e, st, ro⟩ =>
    ((opt (one .ty) t).map fun t e => .property ⟨i, l, x, t, e, st, ro⟩).ap (opt (one .expr) e)
  | .index ⟨i, ro, l, .dict x k, v⟩ =>
    ((one .ty k).map fun k v => .index ⟨i, ro, l, .dict x k, v⟩).ap (opt (one .ty) v)
  | .index ⟨i, ro, l, .single x, v⟩ => (opt (one .ty) v).map fun v => .index ⟨i, ro, l, .single x, v⟩
  | .mapped ⟨i, l, ro, x, s, a, o, t⟩ =>
    (((one .ty s).map fun s a t => .mapped ⟨i, l, ro, x, s, a, o, t⟩).ap (opt (one .ty) a)).ap (one .ty t)

def Expr.form : Expr → Form Expr
  | .call f ps => ((one .expr f).map Expr.call).ap (each (one .expr) ps)
  | .unary o e => (one .expr e).map (Expr.unary o)
  | .binary a o b => ((one .expr a).map fun a b => Expr.binary a o b).ap (one .expr b)
  | .cast e t => ((one .expr e).map Expr.cast).ap (one .ty t)
  | .arrayOf e => (one .expr e).map Expr.arrayOf
  | .ref x => .pure (.ref x)
  | .literal v => .pure (.literal v)

def EnumMember.form (x : EnumMember) : Form EnumMember :=
  (opt (one .expr) x.expr).map fun e => { x with expr := e }

def Decl.form : Decl → Form Decl
  | .space h ms => (each (one .decl) ms).map (Decl.space h)
  | .module h ms => (each (one .decl) ms).map (Decl.module h)
  | .augmentation h ms => (each (one .decl) ms).map (Decl.augmentation h)
  | .global h ms => (each (one .decl) ms).map (Decl.global h)
  | .cls c => ((((each (one .tparam) c.tparams).map fun ps p is ms =>
      .cls { c with tparams := ps, parent := p, implements := is, members := ms }).ap
      (opt (one .ty) c.parent)).ap (each (one .ty) c.implements)).ap (each (one .member) c.members)
  | .iface i => (((each (one .tparam) i.tparams).map fun ps is ms =>
      .iface { i with tparams := ps, inheritance := is, members := ms }).ap
      (each (one .ty) i.inheritance)).ap (each (one .member) i.members)
  | .enum e => ((each EnumMember.form e.members).map fun ms t =>
      .enum { e with members := ms, exportedFrom := t }).ap (opt (one .ty) e.exportedFrom)
  | .var v => ((opt (one .ty) v.tpe).map fun t e => .var { v with tpe := t, expr := e }).ap
      (opt (one .expr) v.expr)
  | .function f => (one .sig f.sig).map fun s => .function { f with sig := s }
  | .typeAlias a => ((each (one .tparam) a.tparams).map fun ps t =>
      .typeAlias { a with tparams := ps, target := t }).ap (one .ty a.target)
  | .exports h (.inline d) => (one .decl d).map fun d => .exports h (.inline d)
  | .exports h x => .pure (.exports h x)
  | .imports i => .pure (.imports i)
  | .exportAs e => .pure (.exportAs e)

def File.form (f : File) : Form File :=
  (each (one .decl) f.members).map fun ms => { f with members := ms }

def Kind.form : (k : Kind) → k.Of → Form k.Of
  | .file => File.form
  | .decl => Decl.form
  | .member => Member.form
  | .ty => Ty.form
  | .sig => Signature.form
  | .param => Param.form
  | .tparam => TypeParam.form
  | .expr => Expr.form

/-! ## Walks -/

namespace Edited

variable {α β : Type}

theorem value_map (f : α → β) (e : Edited α) : (f <$> e).value = f e.value := rfl

theorem value_seq (f : Edited (α → β)) (e : Edited α) : (f <*> e).value = f.value e.value := rfl

theorem seq_new (f : Edited (α → β)) (a : α) : f <*> Edited.new a = Edited.new (f.value a) :=
  congrArg (Edited.mk _) (Bool.or_true _)

theorem getD_toOption {e : Edited α} {a : α} (h : e.changed = false → e.value = a) :
    e.toOption.getD a = e.value := by
  obtain ⟨v, b⟩ := e
  cases b with
  | false => exact (h rfl).symm
  | true => rfl

theorem isSome_toOption (e : Edited α) : e.toOption.isSome = e.changed := by
  obtain ⟨v, b⟩ := e
  cases b <;> rfl

/-- The reference under another name, if there is one. -/
def renamed (e : Edited Ty) (name : Option QIdent) : Edited Ty :=
  match e.value with
  | .ref i _ ts => e.replace (name.map fun x => .ref i x ts)
  | _ => e

theorem renamed_none (e : Edited Ty) : e.renamed none = e := by
  unfold renamed
  split <;> rfl

end Edited

section
variable {m : Type → Type} [Monad m] {C : Type} (h : Hooks m C) (c : C)

def Kind.walk : (k : Kind) → k.Of → m (Edited k.Of)
  | .file => walkFile h c
  | .decl => walkDecl h c
  | .member => walkMember h c
  | .ty => walkTy h c
  | .sig => walkSig h c
  | .param => walkParam h c
  | .tparam => walkTypeParam h c
  | .expr => walkExpr h c

def Form.walk {α : Type} : Form α → m (Edited α)
  | .pure a => Pure.pure (.keep a)
  | .one k a => k.walk h c a
  | .map f x => do
    let x ← x.walk
    Pure.pure (f <$> x)
  | .ap f x => do
    let f ← f.walk
    let x ← x.walk
    Pure.pure (f <*> x)

/-- The members of an object type that is done are offered to the hooks. -/
def Hooks.renewTy (owner : Node) (e : Edited Ty) : m (Edited Ty) :=
  match e.value with
  | .object i ms => do
    let r ← h.newClassMembers c owner ms
    Pure.pure (e.replace (r.map (Ty.object i)))
  | _ => Pure.pure e

/-- The declarations or members of a declaration that is done are offered to the hooks. -/
def Hooks.renewDecl (owner : Node) (d : Decl) (e : Edited Decl) : m (Edited Decl) :=
  match d.members? with
  | some _ => do
    let r ← h.newMembers c owner (e.value.members?.getD [])
    Pure.pure (e.replace (r.bind fun ds => e.value.withMembers? ds))
  | none =>
    match d.classMembers? with
    | some _ => do
      let r ← h.newClassMembers c owner (e.value.classMembers?.getD [])
      Pure.pure (e.replace (r.bind fun ms => e.value.withClassMembers? ms))
    | none => Pure.pure e

section
variable [LawfulMonad m] {α β : Type}

theorem Form.walk_each {f : α → Form β} {w : List α → m (Edited (List β))}
    (hnil : w [] = Pure.pure (.keep []))
    (hcons : ∀ a as, w (a :: as) = do
      let b ← (f a).walk h c
      let bs ← w as
      Pure.pure (List.cons <$> b <*> bs)) (as : List α) : w as = (each f as).walk h c := by
  induction as with
  | nil => exact hnil
  | cons a as ih => simp only [each, walk, hcons, ih, bind_assoc, pure_bind]

theorem walkTys_eq (ts : List Ty) : walkTys h c ts = (each (one .ty) ts).walk h c :=
  walk_each h c rfl (fun _ _ => rfl) ts

theorem walkMembers_eq (ms : List Member) : walkMembers h c ms = (each (one .member) ms).walk h c :=
  walk_each h c rfl (fun _ _ => rfl) ms

theorem walkParams_eq (ps : List Param) : walkParams h c ps = (each (one .param) ps).walk h c :=
  walk_each h c rfl (fun _ _ => rfl) ps

theorem walkTypeParams_eq (ps : List TypeParam) : walkTypeParams h c ps = (each (one .tparam) ps).walk h c :=
  walk_each h c rfl (fun _ _ => rfl) ps

theorem walkExprs_eq (es : List Expr) : walkExprs h c es = (each (one .expr) es).walk h c :=
  walk_each h c rfl (fun _ _ => rfl) es

theorem walkDecls_eq (ds : List Decl) : walkDecls h c ds = (each (one .decl) ds).walk h c :=
  walk_each h c rfl (fun _ _ => rfl) ds

theorem walkElems_eq (es : List TupleElem) : walkElems h c es = (each TupleElem.form es).walk h c := by
  refine walk_each h c rfl (fun e es => ?_) es
  obtain ⟨l, t⟩ := e
  simp only [walkElems, TupleElem.form, walk, Kind.walk, bind_assoc, pure_bind]
  rfl

end

theorem walkTyOption_eq (t : Option Ty) : walkTyOption h c t = (opt (one .ty) t).walk h c := by
  cases t <;> rfl

theorem walkExprOption_eq (e : Option Expr) : walkExprOption h c e = (opt (one .expr) e).walk h c := by
  cases e <;> rfl

variable [LawfulMonad m]

theorem walkEnumMembers_eq (xs : List EnumMember) :
    walkEnumMembers h c xs = (each EnumMember.form xs).walk h c := by
  refine walk_each h c rfl (fun e es => ?_) xs
  simp only [walkEnumMembers, EnumMember.form, walk, walkExprOption_eq, bind_assoc, pure_bind]
  rfl

theorem walkTy_eq (t : Ty) : walkTy h c t = (do
    let name ← h.enterTy (h.within c (.ty t)) t
    let e ← t.form.walk h (h.within c (.ty t))
    let e ← h.renewTy (h.within c (.ty t)) (.ty t) e
    (e.renamed name).thenStep (h.leaveTy (h.within c (.ty t)))) := by
  rw [walkTy]
  refine bind_congr fun name => ?_
  cases t with
  | ref i x ts =>
    simp only [walkTys_eq, Ty.form, walk, Hooks.renewTy, Edited.renamed, Edited.value_map, bind_assoc, pure_bind]
    refine bind_congr fun ts => ?_
    cases name <;> rfl
  | object i ms =>
    simp only [walkMembers_eq, Ty.form, walk, Hooks.renewTy, Edited.renamed, Edited.value_map, Edited.thenStep,
      bind_assoc, pure_bind]
    refine bind_congr fun ms => bind_congr fun r => ?_
    cases r <;> rfl
  | literal | query | this =>
    simp only [Ty.form, walk, Hooks.renewTy, Edited.renamed, Edited.keep, pure_bind]
  | _ =>
    simp only [walkTys_eq, walkElems_eq, Ty.form, walk, Kind.walk, Hooks.renewTy, Edited.renamed,
      Edited.value_map, Edited.value_seq, bind_assoc, pure_bind]

theorem walkTypeParam_eq (p : TypeParam) : walkTypeParam h c p = (do
    h.enterTypeParam (h.within c (.tparam p)) p
    let e ← p.form.walk h (h.within c (.tparam p))
    e.thenStep (h.leaveTypeParam (h.within c (.tparam p)))) := by
  obtain ⟨i, x, b, d⟩ := p
  simp only [walkTypeParam, walkTyOption_eq, TypeParam.form, walk, bind_assoc, pure_bind]

theorem walkParam_eq (p : Param) : walkParam h c p = (do
    let name ← h.enterParam (h.within c (.param p)) p
    let e ← p.form.walk h (h.within c (.param p))
    (e.replace (name.map fun x => { e.value with name := x })).thenStep
      (h.leaveParam (h.within c (.param p)))) := by
  obtain ⟨i, x, b⟩ := p
  simp only [walkParam, walkTyOption_eq, Param.form, walk, bind_assoc, pure_bind]
  refine bind_congr fun name => bind_congr fun t => ?_
  cases name <;> rfl

theorem walkSig_eq (s : Signature) : walkSig h c s = (do
    h.enterSig (h.within c (.sig s)) s
    let e ← s.form.walk h (h.within c (.sig s))
    e.thenStep (h.leaveSig (h.within c (.sig s)))) := by
  obtain ⟨i, ps, xs, r⟩ := s
  simp only [walkSig, walkTypeParams_eq, walkParams_eq, walkTyOption_eq, Signature.form, walk, bind_assoc,
    pure_bind]

theorem walkMember_eq (x : Member) : walkMember h c x = (do
    h.enterMember (h.within c (.member x)) x
    let e ← x.form.walk h (h.within c (.member x))
    e.thenStep (h.leaveMember (h.within c (.member x)))) := by
  rw [walkMember]
  refine bind_congr fun _ => ?_
  unfold Member.form
  split <;> simp only [walkTyOption_eq, walkExprOption_eq, walk, Kind.walk, bind_assoc, pure_bind]

theorem walkExpr_eq (x : Expr) : walkExpr h c x = (do
    h.enterExpr c x
    let e ← x.form.walk h c
    e.thenStep (h.leaveExpr c)) := by
  rw [walkExpr]
  cases x <;> simp only [walkExprs_eq, Expr.form, walk, Kind.walk, bind_assoc, pure_bind]

theorem walkDecl_eq (d : Decl) : walkDecl h c d = (do
    let place ← h.enterDecl (h.within c (.decl d)) d
    let e ← d.form.walk h (h.within c (.decl d))
    let e ← h.renewDecl (h.within c (.decl d)) (.decl (d.atPlace place).value) d e
    (e.replace (e.value.atPlace place).toOption).thenStep (h.leaveDecl (h.within c (.decl d)))) := by
  rw [walkDecl]
  refine bind_congr fun place => ?_
  simp only [Hooks.renewDecl]
  cases d with
  | space | module | augmentation | global =>
    simp only [walkDecls_eq, Decl.form, walk, Decl.members?, Edited.thenStep, Edited.value_map,
      Option.getD_some, bind_assoc, pure_bind]
    refine bind_congr fun ms => bind_congr fun r => ?_
    cases r <;> rfl
  | cls =>
    simp only [walkClass, walkTypeParams_eq, walkTyOption_eq, walkTys_eq, walkMembers_eq, Decl.form, walk,
      Decl.members?, Decl.classMembers?, Edited.thenStep, Edited.value_map, Edited.value_seq,
      Option.getD_some, bind_assoc, pure_bind]
    refine bind_congr fun ps => bind_congr fun p => bind_congr fun is => bind_congr fun ms =>
      bind_congr fun r => ?_
    cases r with
    | none => rfl
    | some ms => simp only [Edited.replace, Edited.seq_new]; rfl
  | iface =>
    simp only [walkInterface, walkTypeParams_eq, walkTys_eq, walkMembers_eq, Decl.form, walk, Decl.members?,
      Decl.classMembers?, Edited.thenStep, Edited.value_map, Edited.value_seq, Option.getD_some, bind_assoc,
      pure_bind]
    refine bind_congr fun ps => bind_congr fun is => bind_congr fun ms => bind_congr fun r => ?_
    cases r with
    | none => rfl
    | some ms => simp only [Edited.replace, Edited.seq_new]; rfl
  | exports hd x =>
    cases x <;> simp only [walkExportee, Decl.form, walk, Kind.walk, Decl.members?, Decl.classMembers?,
      bind_assoc, pure_bind] <;> rfl
  | _ =>
    simp only [walkEnum, walkVar, walkFunction, walkAlias, walkTyOption_eq, walkExprOption_eq,
      walkTypeParams_eq, walkEnumMembers_eq, Decl.form, walk, Kind.walk, Decl.members?, Decl.classMembers?,
      bind_assoc, pure_bind]

theorem walkFile_eq (f : File) : walkFile h c f = (do
    let place ← h.enterFile (h.within c (.file f)) f
    let e ← f.form.walk h (h.within c (.file f))
    let r ← h.newMembers (h.within c (.file f)) (.file (f.atPlace place).value) e.value.members
    let e := e.replace (r.map fun ds => { e.value with members := ds })
    (e.replace (e.value.atPlace place).toOption).thenStep (h.leaveFile (h.within c (.file f)))) := by
  simp only [walkFile, walkDecls_eq, File.form, walk, Edited.thenStep, bind_assoc, pure_bind]
  refine bind_congr fun place => bind_congr fun ms => bind_congr fun r => ?_
  cases r <;> rfl

end

/-! ## Induction -/

/-- The nodes that come first inside a thing. -/
def Kind.nodes : (k : Kind) → k.Of → List Node
  | .file, f => [.file f]
  | .decl, d => [.decl d]
  | .member, x => [.member x]
  | .ty, t => [.ty t]
  | .sig, s => [.sig s]
  | .param, p => [.param p]
  | .tparam, p => [.tparam p]
  | .expr, e => e.nodes

/-- The nodes directly inside a thing. -/
def Kind.inner : (k : Kind) → k.Of → List Node
  | .file, f => (Node.file f).children
  | .decl, d => (Node.decl d).children
  | .member, x => (Node.member x).children
  | .ty, t => (Node.ty t).children
  | .sig, s => (Node.sig s).children
  | .param, p => (Node.param p).children
  | .tparam, p => (Node.tparam p).children
  | .expr, e => e.nodes

noncomputable def Kind.size (k : Kind) (a : k.Of) : Nat := by
  cases k <;> exact sizeOf a

namespace Form

variable {α β : Type} {P Q : (k : Kind) → k.Of → Prop}

/-- `P` holds of all that the value is put together from. -/
def All (P : (k : Kind) → k.Of → Prop) {α : Type} : Form α → Prop
  | .pure _ => True
  | .one k a => P k a
  | .map _ x => x.All P
  | .ap f x => f.All P ∧ x.All P

def nodes {α : Type} : Form α → List Node
  | .pure _ => []
  | .one k a => k.nodes a
  | .map _ x => x.nodes
  | .ap f x => f.nodes ++ x.nodes

theorem all_each {f : α → Form β} {as : List α} : (each f as).All P ↔ ∀ a ∈ as, (f a).All P := by
  induction as with
  | nil => simp [each, All]
  | cons a as ih => simp [each, All, ih]

theorem all_opt {f : α → Form β} {a : Option α} : (opt f a).All P ↔ ∀ b ∈ a, (f b).All P := by
  cases a <;> simp [opt, All]

theorem nodes_each {f : α → Form β} {as : List α} :
    (each f as).nodes = as.flatMap fun a => (f a).nodes := by
  induction as with
  | nil => rfl
  | cons a as ih => simp [each, nodes, ih]

theorem nodes_opt {f : α → Form β} {a : Option α} :
    (opt f a).nodes = a.toList.flatMap fun a => (f a).nodes := by
  cases a <;> simp [opt, nodes]

theorem all_nodes {visits : Node → Prop} {x : Form α} :
    (x.All fun k a => ∀ n ∈ k.nodes a, visits n) ↔ ∀ n ∈ x.nodes, visits n := by
  induction x with
  | pure => simp [All, nodes]
  | one => rfl
  | map _ _ ih => exact ih
  | ap _ _ ihf ihx => rw [All, nodes, List.forall_mem_append, ihf, ihx]

theorem all_of_forall (h : ∀ k a, P k a) (x : Form α) : x.All P := by
  induction x with
  | pure => trivial
  | one k a => exact h k a
  | map _ _ ih => exact ih
  | ap _ _ ihf ihx => exact ⟨ihf, ihx⟩

theorem All.mono (hPQ : ∀ k a, P k a → Q k a) {x : Form α} (h : x.All P) : x.All Q := by
  induction x with
  | pure => exact h
  | one k a => exact hPQ k a h
  | map _ _ ih => exact ih h
  | ap _ _ ihf ihx => exact ⟨ihf h.1, ihx h.2⟩

theorem All.and {x : Form α} (h : x.All P) (h' : x.All Q) : x.All fun k a => P k a ∧ Q k a := by
  induction x with
  | pure => trivial
  | one => exact ⟨h, h'⟩
  | map _ _ ih => exact ih h h'
  | ap _ _ ihf ihx => exact ⟨ihf h.1 h'.1, ihx h.2 h'.2⟩

end Form

theorem TupleElem.sizeOf_lt_of_mem {e : TupleElem} {es : List TupleElem} (h : e ∈ es) :
    sizeOf e.tpe < sizeOf es := by
  have hlt := List.sizeOf_lt_of_mem h
  obtain ⟨l, t⟩ := e
  simp only [TupleElem.mk.sizeOf_spec] at hlt
  dsimp only
  omega

theorem EnumMember.sizeOf_lt_of_mem {x : EnumMember} {xs : List EnumMember} (h : x ∈ xs) {e : Expr}
    (he : x.expr = some e) : sizeOf e < sizeOf xs := by
  have hlt := List.sizeOf_lt_of_mem h
  obtain ⟨c, y, o⟩ := x
  obtain rfl : o = some e := he
  simp only [EnumMember.mk.sizeOf_spec, Option.some.sizeOf_spec] at hlt
  omega

section
attribute [local grind →] List.sizeOf_lt_of_mem TupleElem.sizeOf_lt_of_mem EnumMember.sizeOf_lt_of_mem

theorem Kind.form_smaller (k : Kind) (a : k.Of) : (k.form a).All fun k' b => k'.size b < k.size a := by
  cases k with
  | file | sig | param | tparam =>
    obtain ⟨⟩ := a
    simp [Kind.form, File.form, Signature.form, Param.form, TypeParam.form, Kind.size, All, all_each, all_opt]
    grind
  | decl =>
    match a with
    | .imports _ | .exportAs _ | .exports _ (.names _ _) | .exports _ (.star _ _) => trivial
    | .exports _ (.inline _) | .function ⟨_, _, _, _, _, _⟩ =>
      simp [Kind.form, Decl.form, Kind.size, All]
      try omega
    | .space _ _ | .module _ _ | .augmentation _ _ | .global _ _ | .cls ⟨_, _, _, _, _, _, _, _, _, _⟩
    | .iface ⟨_, _, _, _, _, _, _⟩ | .enum ⟨_, _, _, _, _, _, _, _, _⟩ | .var ⟨_, _, _, _, _, _, _, _⟩
    | .typeAlias ⟨_, _, _, _, _, _⟩ =>
      simp [Kind.form, Decl.form, EnumMember.form, Kind.size, All, all_each, all_opt]
      grind
  | member =>
    match a with
    | .call ⟨_, _, _⟩ | .ctor ⟨_, _, _⟩ | .function ⟨_, _, _, _, _, _, _⟩ | .property ⟨_, _, _, _, _, _, _⟩
    | .index ⟨_, _, _, .dict _ _, _⟩ | .index ⟨_, _, _, .single _, _⟩ | .mapped ⟨_, _, _, _, _, _, _, _⟩ =>
      simp [Kind.form, Member.form, Kind.size, All, all_opt]
      grind
  | ty => cases a <;> simp [Kind.form, Ty.form, TupleElem.form, Kind.size, All, all_each] <;> grind
  | expr => cases a <;> simp [Kind.form, Expr.form, Kind.size, All, all_each] <;> grind

end

/-- What holds of a thing if it holds of all that the thing is put together from holds of everything. -/
theorem Kind.induct {P : (k : Kind) → k.Of → Prop} (step : ∀ k a, (k.form a).All P → P k a) (k : Kind)
    (a : k.Of) : P k a := by
  induction hn : k.size a using Nat.strongRecOn generalizing k a with
  | ind n ih => exact step k a ((k.form_smaller a).mono fun k' b hb => ih _ (hn ▸ hb) k' b rfl)

theorem Kind.nodes_form (k : Kind) (a : k.Of) : (k.form a).nodes = k.inner a := by
  have hmap : ∀ {α : Type} (as : List α) (f : α → Node), as.flatMap (fun a => [f a]) = as.map f :=
    fun _ _ => List.map_eq_flatMap.symm
  have hexprs : ∀ es : List Expr, es.flatMap Expr.nodes = Expr.nodesList es := by
    intro es
    induction es with
    | nil => rfl
    | cons e es ih => simp [Expr.nodesList, ih]
  have hopt : ∀ e : Option Expr, e.toList.flatMap Expr.nodes = Expr.nodesOption e := by
    intro e
    cases e <;> simp [Expr.nodesOption]
  cases k with
  | file | sig | param | tparam =>
    simp [Kind.form, File.form, Signature.form, Param.form, TypeParam.form, Form.nodes, nodes_each, nodes_opt,
      Kind.nodes, Kind.inner, hmap, Node.children]
  | decl =>
    simp only [Kind.form, Decl.form, Kind.inner, Node.children, Node.childrenOfDecl]
    split <;> simp [EnumMember.form, Form.nodes, nodes_each, nodes_opt, Kind.nodes, hmap, hopt]
  | member =>
    simp only [Kind.form, Member.form, Kind.inner, Node.children, Node.childrenOfMember]
    split <;> simp [Form.nodes, nodes_opt, Kind.nodes, hmap, hopt]
  | ty =>
    cases a <;> simp [Kind.form, Ty.form, TupleElem.form, Form.nodes, nodes_each, Kind.nodes, Kind.inner, hmap,
      Node.children, Node.childrenOfTy]
  | expr => cases a <;> simp [Kind.form, Expr.form, Form.nodes, nodes_each, Kind.nodes, Kind.inner, hexprs, Expr.nodes]

end Ambient
