import Ambient.Tree.Basic

/-!
# Numbering the nodes of a tree

`renumber f` replaces the identity of every node by what `f` makes of it and leaves all else as it
is. Numbering a tree is the case in which `f` hands out one number after the other, in the order in
which the nodes are written, so that no two nodes of the tree have one identity.
-/

namespace Ambient

/-- The node information with a new identity. -/
def NodeInfo.renumber {m : Type → Type} [Monad m] (f : NodeId → m NodeId) (i : NodeInfo) :
    m NodeInfo := do
  return { i with id := ← f i.id }

section

variable {m : Type → Type} [Monad m] (f : NodeId → m NodeId)

mutual

def Ty.renumber : Ty → m Ty
  | .ref i x ts => return .ref (← i.renumber f) x (← Ty.renumberList ts)
  | .literal i v => return .literal (← f i) v
  | .object i ms => return .object (← i.renumber f) (← Member.renumberList ms)
  | .function s => return .function (← s.renumber)
  | .constructor i a s => return .constructor (← f i) a (← s.renumber)
  | .tuple i es => return .tuple (← f i) (← TupleElem.renumberList es)
  | .query i x => return .query (← f i) x
  | .repeated i t => return .repeated (← f i) (← t.renumber)
  | .keyOf i t => return .keyOf (← f i) (← t.renumber)
  | .lookup i t k => return .lookup (← f i) (← t.renumber) (← k.renumber)
  | .this => return .this
  | .union i ts => return .union (← f i) (← Ty.renumberList ts)
  | .intersect i ts => return .intersect (← f i) (← Ty.renumberList ts)
  | .conditional i p t e =>
    return .conditional (← f i) (← p.renumber) (← t.renumber) (← e.renumber)
  | .extending i t b => return .extending (← f i) (← t.renumber) (← b.renumber)
  | .infer p => return .infer (← p.renumber)
  | .is i x t => return .is (← f i) x (← t.renumber)

def Ty.renumberList : List Ty → m (List Ty)
  | [] => return []
  | t :: ts => return (← t.renumber) :: (← Ty.renumberList ts)

def Ty.renumberOption : Option Ty → m (Option Ty)
  | none => return none
  | some t => return some (← t.renumber)

def TupleElem.renumberList : List TupleElem → m (List TupleElem)
  | [] => return []
  | ⟨l, t⟩ :: es => return ⟨l, ← t.renumber⟩ :: (← TupleElem.renumberList es)

def TypeParam.renumber : TypeParam → m TypeParam
  | ⟨i, x, b, d⟩ => return ⟨← i.renumber f, x, ← Ty.renumberOption b, ← Ty.renumberOption d⟩

def TypeParam.renumberList : List TypeParam → m (List TypeParam)
  | [] => return []
  | p :: ps => return (← p.renumber) :: (← TypeParam.renumberList ps)

def Param.renumberList : List Param → m (List Param)
  | [] => return []
  | ⟨i, x, t⟩ :: ps =>
    return ⟨← i.renumber f, x, ← Ty.renumberOption t⟩ :: (← Param.renumberList ps)

def Signature.renumber : Signature → m Signature
  | ⟨i, ps, xs, r⟩ =>
    return ⟨← i.renumber f, ← TypeParam.renumberList ps, ← Param.renumberList xs,
      ← Ty.renumberOption r⟩

def Member.renumber : Member → m Member
  | .call ⟨i, l, s⟩ => return .call ⟨← i.renumber f, l, ← s.renumber⟩
  | .ctor ⟨i, l, s⟩ => return .ctor ⟨← i.renumber f, l, ← s.renumber⟩
  | .function ⟨i, l, x, k, s, st, ro⟩ =>
    return .function ⟨← i.renumber f, l, x, k, ← s.renumber, st, ro⟩
  | .property ⟨i, l, x, t, e, st, ro⟩ =>
    return .property ⟨← i.renumber f, l, x, ← Ty.renumberOption t, ← Expr.renumberOption e, st, ro⟩
  | .index ⟨i, ro, l, .dict x t, v⟩ =>
    return .index ⟨← i.renumber f, ro, l, .dict x (← t.renumber), ← Ty.renumberOption v⟩
  | .index ⟨i, ro, l, .single x, v⟩ =>
    return .index ⟨← i.renumber f, ro, l, .single x, ← Ty.renumberOption v⟩
  | .mapped ⟨i, l, ro, x, s, a, o, t⟩ =>
    return .mapped ⟨← i.renumber f, l, ro, x, ← s.renumber, ← Ty.renumberOption a, o,
      ← t.renumber⟩

def Member.renumberList : List Member → m (List Member)
  | [] => return []
  | x :: xs => return (← x.renumber) :: (← Member.renumberList xs)

/-- Renumbers the types inside an initialiser. -/
def Expr.renumber : Expr → m Expr
  | .ref x => return .ref x
  | .literal v => return .literal v
  | .call g ps => return .call (← g.renumber) (← Expr.renumberList ps)
  | .unary o e => return .unary o (← e.renumber)
  | .binary a o b => return .binary (← a.renumber) o (← b.renumber)
  | .cast e t => return .cast (← e.renumber) (← t.renumber)
  | .arrayOf e => return .arrayOf (← e.renumber)

def Expr.renumberList : List Expr → m (List Expr)
  | [] => return []
  | e :: es => return (← e.renumber) :: (← Expr.renumberList es)

def Expr.renumberOption : Option Expr → m (Option Expr)
  | none => return none
  | some e => return some (← e.renumber)

end

def Param.renumber (p : Param) : m Param :=
  return { p with info := ← p.info.renumber f, tpe := ← Ty.renumberOption f p.tpe }

def EnumMember.renumber (e : EnumMember) : m EnumMember :=
  return { e with expr := ← Expr.renumberOption f e.expr }

def ClassDecl.renumber (c : ClassDecl) : m ClassDecl :=
  return { c with
    info := ← c.info.renumber f
    tparams := ← TypeParam.renumberList f c.tparams
    parent := ← Ty.renumberOption f c.parent
    implements := ← Ty.renumberList f c.implements
    members := ← Member.renumberList f c.members }

def InterfaceDecl.renumber (i : InterfaceDecl) : m InterfaceDecl :=
  return { i with
    info := ← i.info.renumber f
    tparams := ← TypeParam.renumberList f i.tparams
    inheritance := ← Ty.renumberList f i.inheritance
    members := ← Member.renumberList f i.members }

def EnumDecl.renumber (e : EnumDecl) : m EnumDecl :=
  return { e with
    info := ← e.info.renumber f
    members := ← e.members.mapM (EnumMember.renumber f)
    exportedFrom := ← Ty.renumberOption f e.exportedFrom }

def VarDecl.renumber (v : VarDecl) : m VarDecl :=
  return { v with
    info := ← v.info.renumber f
    tpe := ← Ty.renumberOption f v.tpe
    expr := ← Expr.renumberOption f v.expr }

def FunctionDecl.renumber (g : FunctionDecl) : m FunctionDecl :=
  return { g with info := ← g.info.renumber f, sig := ← g.sig.renumber f }

def AliasDecl.renumber (a : AliasDecl) : m AliasDecl :=
  return { a with
    info := ← a.info.renumber f
    tparams := ← TypeParam.renumberList f a.tparams
    target := ← a.target.renumber f }

mutual

def Decl.renumber : Decl → m Decl
  | .space h ms =>
    return .space { h with info := ← h.info.renumber f } (← Decl.renumberList ms)
  | .module h ms =>
    return .module { h with info := ← h.info.renumber f } (← Decl.renumberList ms)
  | .augmentation h ms =>
    return .augmentation { h with info := ← h.info.renumber f } (← Decl.renumberList ms)
  | .global h ms =>
    return .global { h with info := ← h.info.renumber f } (← Decl.renumberList ms)
  | .cls c => return .cls (← c.renumber f)
  | .iface i => return .iface (← i.renumber f)
  | .enum e => return .enum (← e.renumber f)
  | .var v => return .var (← v.renumber f)
  | .function g => return .function (← g.renumber f)
  | .typeAlias a => return .typeAlias (← a.renumber f)
  | .imports i => return .imports { i with id := ← f i.id }
  | .exports h e => return .exports { h with info := ← h.info.renumber f } (← e.renumber)
  | .exportAs e => return .exportAs { e with id := ← f e.id }

def Exportee.renumber : Exportee → m Exportee
  | .names xs s => return .names xs s
  | .inline d => return .inline (← d.renumber)
  | .star a s => return .star a s

def Decl.renumberList : List Decl → m (List Decl)
  | [] => return []
  | d :: ds => return (← d.renumber) :: (← Decl.renumberList ds)

end

def File.renumber (x : File) : m File :=
  return { x with info := ← x.info.renumber f, members := ← Decl.renumberList f x.members }

def Node.renumber : Node → m Node
  | .file x => return .file (← x.renumber f)
  | .decl x => return .decl (← x.renumber f)
  | .member x => return .member (← x.renumber f)
  | .ty x => return .ty (← x.renumber f)
  | .sig x => return .sig (← x.renumber f)
  | .param x => return .param (← x.renumber f)
  | .tparam x => return .tparam (← x.renumber f)

end

/-- Hands out the next number. -/
def nextId (_ : NodeId) : StateM NodeId NodeId :=
  modifyGet fun n => (n, n + 1)

/-- The file with its nodes numbered from `n` on, and the first number that is left. -/
def File.number (x : File) (n : NodeId) : File × NodeId :=
  (x.renumber nextId).run n

/-- The node with all nodes in it numbered from `n` on, and the first number that is left. -/
def Node.number (x : Node) (n : NodeId) : Node × NodeId :=
  (x.renumber nextId).run n

end Ambient
