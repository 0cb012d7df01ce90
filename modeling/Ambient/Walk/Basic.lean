import Ambient.Walk.Edited
import Ambient.Walk.Hooks

/-!
# Walking a tree

The walk that drives the hooks of a transformation over a tree. At each node it derives the context,
enters, walks the parts in the order in which they are written, offers the member list of a
container, class, interface or object type, and leaves. A node is rebuilt when one of its parts is
another node, so a walk whose hooks keep everything returns the tree that it was given.

Initialisers introduce no context of their own: they see that of their owner.
-/

namespace Ambient

/-- The file at the place that a hook gave it. -/
def File.atPlace (f : File) : Option CodePath → Edited File
  | none => .keep f
  | some p => .new { f with codePath := p }

/-- The declaration at the place that a hook gave it; one without a place stays as it is. -/
def Decl.atPlace (d : Decl) (p : Option CodePath) : Edited Decl :=
  (Edited.keep d).replace (p.bind fun p => d.withCodePath? p)

section

variable {m : Type → Type} [Monad m] {Ctx : Type} (h : Hooks m Ctx)

mutual

/-- Walks a type. -/
def walkTy (ctx : Ctx) (t : Ty) : m (Edited Ty) := do
  let ctx := h.within ctx (.ty t)
  let rename ← h.enterTy ctx t
  let e ← match t with
    | .ref i x ts => do
      let ts ← walkTys ctx ts
      pure (Ty.ref i <$> (Edited.keep x).replace rename <*> ts)
    | .object i ms => do
      let ms ← (← walkMembers ctx ms).thenStep (h.newClassMembers ctx (.ty (.object i ms)))
      pure (Ty.object i <$> ms)
    | .function s => do
      let s ← walkSig ctx s
      pure (Ty.function <$> s)
    | .constructor i a s => do
      let s ← walkSig ctx s
      pure (Ty.constructor i a <$> s)
    | .tuple i es => do
      let es ← walkElems ctx es
      pure (Ty.tuple i <$> es)
    | .repeated i t => do
      let t ← walkTy ctx t
      pure (Ty.repeated i <$> t)
    | .keyOf i t => do
      let t ← walkTy ctx t
      pure (Ty.keyOf i <$> t)
    | .lookup i t k => do
      let t ← walkTy ctx t
      let k ← walkTy ctx k
      pure (Ty.lookup i <$> t <*> k)
    | .union i ts => do
      let ts ← walkTys ctx ts
      pure (Ty.union i <$> ts)
    | .intersect i ts => do
      let ts ← walkTys ctx ts
      pure (Ty.intersect i <$> ts)
    | .conditional i p t e => do
      let p ← walkTy ctx p
      let t ← walkTy ctx t
      let e ← walkTy ctx e
      pure (Ty.conditional i <$> p <*> t <*> e)
    | .extending i t b => do
      let t ← walkTy ctx t
      let b ← walkTy ctx b
      pure (Ty.extending i <$> t <*> b)
    | .infer p => do
      let p ← walkTypeParam ctx p
      pure (Ty.infer <$> p)
    | .is i x t => do
      let t ← walkTy ctx t
      pure (Ty.is i x <$> t)
    | .literal i v => pure (.keep (.literal i v))
    | .query i x => pure (.keep (.query i x))
    | .this => pure (.keep .this)
  e.thenStep (h.leaveTy ctx)

def walkTys (ctx : Ctx) : List Ty → m (Edited (List Ty))
  | [] => pure (.keep [])
  | t :: ts => do
    let t ← walkTy ctx t
    let ts ← walkTys ctx ts
    pure (List.cons <$> t <*> ts)

def walkTyOption (ctx : Ctx) : Option Ty → m (Edited (Option Ty))
  | none => pure (.keep none)
  | some t => do
    let t ← walkTy ctx t
    pure (some <$> t)

def walkElems (ctx : Ctx) : List TupleElem → m (Edited (List TupleElem))
  | [] => pure (.keep [])
  | ⟨l, t⟩ :: es => do
    let t ← walkTy ctx t
    let es ← walkElems ctx es
    pure ((fun t es => ⟨l, t⟩ :: es) <$> t <*> es)

def walkTypeParam (ctx : Ctx) (p : TypeParam) : m (Edited TypeParam) := do
  let ctx := h.within ctx (.tparam p)
  h.enterTypeParam ctx p
  let e ← match p with
    | ⟨i, x, b, d⟩ => do
      let b ← walkTyOption ctx b
      let d ← walkTyOption ctx d
      pure (TypeParam.mk i x <$> b <*> d)
  e.thenStep (h.leaveTypeParam ctx)

def walkTypeParams (ctx : Ctx) : List TypeParam → m (Edited (List TypeParam))
  | [] => pure (.keep [])
  | p :: ps => do
    let p ← walkTypeParam ctx p
    let ps ← walkTypeParams ctx ps
    pure (List.cons <$> p <*> ps)

def walkParam (ctx : Ctx) (p : Param) : m (Edited Param) := do
  let ctx := h.within ctx (.param p)
  let rename ← h.enterParam ctx p
  let e ← match p with
    | ⟨i, x, t⟩ => do
      let t ← walkTyOption ctx t
      pure (Param.mk i <$> (Edited.keep x).replace rename <*> t)
  e.thenStep (h.leaveParam ctx)

def walkParams (ctx : Ctx) : List Param → m (Edited (List Param))
  | [] => pure (.keep [])
  | p :: ps => do
    let p ← walkParam ctx p
    let ps ← walkParams ctx ps
    pure (List.cons <$> p <*> ps)

def walkSig (ctx : Ctx) (s : Signature) : m (Edited Signature) := do
  let ctx := h.within ctx (.sig s)
  h.enterSig ctx s
  let e ← match s with
    | ⟨i, ps, xs, r⟩ => do
      let ps ← walkTypeParams ctx ps
      let xs ← walkParams ctx xs
      let r ← walkTyOption ctx r
      pure (Signature.mk i <$> ps <*> xs <*> r)
  e.thenStep (h.leaveSig ctx)

def walkMember (ctx : Ctx) (x : Member) : m (Edited Member) := do
  let ctx := h.within ctx (.member x)
  h.enterMember ctx x
  let e ← match x with
    | .call ⟨i, l, s⟩ => do
      let s ← walkSig ctx s
      pure ((fun s => Member.call ⟨i, l, s⟩) <$> s)
    | .ctor ⟨i, l, s⟩ => do
      let s ← walkSig ctx s
      pure ((fun s => Member.ctor ⟨i, l, s⟩) <$> s)
    | .function ⟨i, l, x, k, s, st, ro⟩ => do
      let s ← walkSig ctx s
      pure ((fun s => Member.function ⟨i, l, x, k, s, st, ro⟩) <$> s)
    | .property ⟨i, l, x, t, e, st, ro⟩ => do
      let t ← walkTyOption ctx t
      let e ← walkExprOption ctx e
      pure ((fun t e => Member.property ⟨i, l, x, t, e, st, ro⟩) <$> t <*> e)
    | .index ⟨i, ro, l, .dict x k, v⟩ => do
      let k ← walkTy ctx k
      let v ← walkTyOption ctx v
      pure ((fun k v => Member.index ⟨i, ro, l, .dict x k, v⟩) <$> k <*> v)
    | .index ⟨i, ro, l, .single x, v⟩ => do
      let v ← walkTyOption ctx v
      pure ((fun v => Member.index ⟨i, ro, l, .single x, v⟩) <$> v)
    | .mapped ⟨i, l, ro, x, s, a, o, t⟩ => do
      let s ← walkTy ctx s
      let a ← walkTyOption ctx a
      let t ← walkTy ctx t
      pure ((fun s a t => Member.mapped ⟨i, l, ro, x, s, a, o, t⟩) <$> s <*> a <*> t)
  e.thenStep (h.leaveMember ctx)

def walkMembers (ctx : Ctx) : List Member → m (Edited (List Member))
  | [] => pure (.keep [])
  | x :: xs => do
    let x ← walkMember ctx x
    let xs ← walkMembers ctx xs
    pure (List.cons <$> x <*> xs)

def walkExpr (ctx : Ctx) (x : Expr) : m (Edited Expr) := do
  h.enterExpr ctx x
  let e ← match x with
    | .call f ps => do
      let f ← walkExpr ctx f
      let ps ← walkExprs ctx ps
      pure (Expr.call <$> f <*> ps)
    | .unary o e => do
      let e ← walkExpr ctx e
      pure (Expr.unary o <$> e)
    | .binary a o b => do
      let a ← walkExpr ctx a
      let b ← walkExpr ctx b
      pure ((fun a b => Expr.binary a o b) <$> a <*> b)
    | .cast e t => do
      let e ← walkExpr ctx e
      let t ← walkTy ctx t
      pure (Expr.cast <$> e <*> t)
    | .arrayOf e => do
      let e ← walkExpr ctx e
      pure (Expr.arrayOf <$> e)
    | .ref x => pure (.keep (.ref x))
    | .literal v => pure (.keep (.literal v))
  e.thenStep (h.leaveExpr ctx)

def walkExprs (ctx : Ctx) : List Expr → m (Edited (List Expr))
  | [] => pure (.keep [])
  | e :: es => do
    let e ← walkExpr ctx e
    let es ← walkExprs ctx es
    pure (List.cons <$> e <*> es)

def walkExprOption (ctx : Ctx) : Option Expr → m (Edited (Option Expr))
  | none => pure (.keep none)
  | some e => do
    let e ← walkExpr ctx e
    pure (some <$> e)

end

/-- Walks the members of an enumeration. -/
def walkEnumMembers (ctx : Ctx) : List EnumMember → m (Edited (List EnumMember))
  | [] => pure (.keep [])
  | x :: xs => do
    let e ← walkExprOption h ctx x.expr
    let xs ← walkEnumMembers ctx xs
    pure ((fun e xs => { x with expr := e } :: xs) <$> e <*> xs)

def walkClass (ctx : Ctx) (owner : Node) (c : ClassDecl) : m (Edited Decl) := do
  let ps ← walkTypeParams h ctx c.tparams
  let p ← walkTyOption h ctx c.parent
  let is ← walkTys h ctx c.implements
  let ms ← (← walkMembers h ctx c.members).thenStep (h.newClassMembers ctx owner)
  pure ((fun ps p is ms =>
    .cls { c with tparams := ps, parent := p, implements := is, members := ms })
    <$> ps <*> p <*> is <*> ms)

def walkInterface (ctx : Ctx) (owner : Node) (i : InterfaceDecl) : m (Edited Decl) := do
  let ps ← walkTypeParams h ctx i.tparams
  let is ← walkTys h ctx i.inheritance
  let ms ← (← walkMembers h ctx i.members).thenStep (h.newClassMembers ctx owner)
  pure ((fun ps is ms => .iface { i with tparams := ps, inheritance := is, members := ms })
    <$> ps <*> is <*> ms)

def walkEnum (ctx : Ctx) (e : EnumDecl) : m (Edited Decl) := do
  let ms ← walkEnumMembers h ctx e.members
  let t ← walkTyOption h ctx e.exportedFrom
  pure ((fun ms t => .enum { e with members := ms, exportedFrom := t }) <$> ms <*> t)

def walkVar (ctx : Ctx) (v : VarDecl) : m (Edited Decl) := do
  let t ← walkTyOption h ctx v.tpe
  let e ← walkExprOption h ctx v.expr
  pure ((fun t e => .var { v with tpe := t, expr := e }) <$> t <*> e)

def walkFunction (ctx : Ctx) (f : FunctionDecl) : m (Edited Decl) := do
  let s ← walkSig h ctx f.sig
  pure ((fun s => .function { f with sig := s }) <$> s)

def walkAlias (ctx : Ctx) (a : AliasDecl) : m (Edited Decl) := do
  let ps ← walkTypeParams h ctx a.tparams
  let t ← walkTy h ctx a.target
  pure ((fun ps t => .typeAlias { a with tparams := ps, target := t }) <$> ps <*> t)

mutual

/-- Walks a declaration. -/
def walkDecl (ctx : Ctx) (d : Decl) : m (Edited Decl) := do
  let ctx := h.within ctx (.decl d)
  let place ← h.enterDecl ctx d
  let owner := Node.decl (d.atPlace place).value
  let e ← match d with
    | .space hd ms => do
      let ms ← (← walkDecls ctx ms).thenStep (h.newMembers ctx owner)
      pure (Decl.space hd <$> ms)
    | .module hd ms => do
      let ms ← (← walkDecls ctx ms).thenStep (h.newMembers ctx owner)
      pure (Decl.module hd <$> ms)
    | .augmentation hd ms => do
      let ms ← (← walkDecls ctx ms).thenStep (h.newMembers ctx owner)
      pure (Decl.augmentation hd <$> ms)
    | .global hd ms => do
      let ms ← (← walkDecls ctx ms).thenStep (h.newMembers ctx owner)
      pure (Decl.global hd <$> ms)
    | .cls c => walkClass h ctx owner c
    | .iface i => walkInterface h ctx owner i
    | .enum e => walkEnum h ctx e
    | .var v => walkVar h ctx v
    | .function f => walkFunction h ctx f
    | .typeAlias a => walkAlias h ctx a
    | .exports hd x => do
      let x ← walkExportee ctx x
      pure (Decl.exports hd <$> x)
    | .imports i => pure (.keep (.imports i))
    | .exportAs e => pure (.keep (.exportAs e))
  let e := e.replace ((e.value.atPlace place).toOption)
  e.thenStep (h.leaveDecl ctx)

/-- Walks the declaration of an inline export. -/
def walkExportee (ctx : Ctx) : Exportee → m (Edited Exportee)
  | .inline d => do
    let d ← walkDecl ctx d
    pure (Exportee.inline <$> d)
  | .names xs s => pure (.keep (.names xs s))
  | .star a s => pure (.keep (.star a s))

def walkDecls (ctx : Ctx) : List Decl → m (Edited (List Decl))
  | [] => pure (.keep [])
  | d :: ds => do
    let d ← walkDecl ctx d
    let ds ← walkDecls ctx ds
    pure (List.cons <$> d <*> ds)

end

/-- Walks a file. -/
def walkFile (ctx : Ctx) (f : File) : m (Edited File) := do
  let ctx := h.within ctx (.file f)
  let place ← h.enterFile ctx f
  let owner := Node.file (f.atPlace place).value
  let ms ← (← walkDecls h ctx f.members).thenStep (h.newMembers ctx owner)
  let e := (fun ms => { f with members := ms }) <$> ms
  let e := e.replace ((e.value.atPlace place).toOption)
  e.thenStep (h.leaveFile ctx)

end

end Ambient
