import Ambient.Proofs.Walk

/-!
# What a walk builds

A walk takes a tree apart and puts it together again, from the bottom up. So what becomes of a file
follows from what becomes of one node if it is known what became of the nodes directly inside it
(`walkFile_builds`).

* `Node.Alike`: two nodes differ at most in the nodes directly inside them.
* `Walked R ns ns' b`: the nodes `ns` became `ns'`, each as `R` says, and `b` tells whether one of them
  is another node.
* A `Logic` says how the computations of a monad end. What it knows of the state is a world, and worlds
  only grow.
* `Hooks.Builds`: the hooks keep what becomes of nodes as `R` says.
-/

namespace Ambient

/-! ## Nodes that differ in their parts only -/

mutual

/-- The initialiser with `this` for every type in it. -/
def Expr.bare : Expr → Expr
  | .ref x => .ref x
  | .literal v => .literal v
  | .call f ps => .call f.bare (Expr.bareList ps)
  | .unary o e => .unary o e.bare
  | .binary a o b => .binary a.bare o b.bare
  | .cast e _ => .cast e.bare .this
  | .arrayOf e => .arrayOf e.bare

def Expr.bareList : List Expr → List Expr
  | [] => []
  | e :: es => e.bare :: Expr.bareList es

end

def EnumMember.bare (m : EnumMember) : EnumMember := { m with expr := m.expr.map Expr.bare }

/-- The nodes differ at most in the nodes directly inside them. -/
inductive Node.Alike : Node → Node → Prop
  | leaf {n : Node} (h : n.children = []) : Alike n n
  | ref (i : NodeInfo) (x : QIdent) (ts ts' : List Ty) : Alike (.ty (.ref i x ts)) (.ty (.ref i x ts'))
  | object (i : NodeInfo) (ms ms' : List Member) : Alike (.ty (.object i ms)) (.ty (.object i ms'))
  | funTy (s s' : Signature) : Alike (.ty (.function s)) (.ty (.function s'))
  | ctorTy (i : NodeId) (a : Bool) (s s' : Signature) :
    Alike (.ty (.constructor i a s)) (.ty (.constructor i a s'))
  | tuple (i : NodeId) (es es' : List TupleElem) (h : es'.map (·.label) = es.map (·.label)) :
    Alike (.ty (.tuple i es)) (.ty (.tuple i es'))
  | repeated (i : NodeId) (t t' : Ty) : Alike (.ty (.repeated i t)) (.ty (.repeated i t'))
  | keyOf (i : NodeId) (t t' : Ty) : Alike (.ty (.keyOf i t)) (.ty (.keyOf i t'))
  | lookup (i : NodeId) (t k t' k' : Ty) : Alike (.ty (.lookup i t k)) (.ty (.lookup i t' k'))
  | union (i : NodeId) (ts ts' : List Ty) : Alike (.ty (.union i ts)) (.ty (.union i ts'))
  | intersect (i : NodeId) (ts ts' : List Ty) :
    Alike (.ty (.intersect i ts)) (.ty (.intersect i ts'))
  | conditional (i : NodeId) (p t e p' t' e' : Ty) :
    Alike (.ty (.conditional i p t e)) (.ty (.conditional i p' t' e'))
  | extending (i : NodeId) (t b t' b' : Ty) :
    Alike (.ty (.extending i t b)) (.ty (.extending i t' b'))
  | infer (p p' : TypeParam) : Alike (.ty (.infer p)) (.ty (.infer p'))
  | is (i : NodeId) (x : Ident) (t t' : Ty) : Alike (.ty (.is i x t)) (.ty (.is i x t'))
  | call (i : NodeInfo) (l : Level) (s s' : Signature) :
    Alike (.member (.call ⟨i, l, s⟩)) (.member (.call ⟨i, l, s'⟩))
  | ctor (i : NodeInfo) (l : Level) (s s' : Signature) :
    Alike (.member (.ctor ⟨i, l, s⟩)) (.member (.ctor ⟨i, l, s'⟩))
  | method (m : Method) (s : Signature) :
    Alike (.member (.function m)) (.member (.function { m with sig := s }))
  | property (p : Property) (t : Option Ty) (e : Option Expr) (ht : t.isSome = p.tpe.isSome)
    (he : e.map Expr.bare = p.expr.map Expr.bare) :
    Alike (.member (.property p)) (.member (.property { p with tpe := t, expr := e }))
  | dict (i : NodeInfo) (ro : Bool) (l : Level) (x : Ident) (k k' : Ty) (v v' : Option Ty) :
    Alike (.member (.index ⟨i, ro, l, .dict x k, v⟩)) (.member (.index ⟨i, ro, l, .dict x k', v'⟩))
  | single (i : NodeInfo) (ro : Bool) (l : Level) (x : QIdent) (v v' : Option Ty) :
    Alike (.member (.index ⟨i, ro, l, .single x, v⟩)) (.member (.index ⟨i, ro, l, .single x, v'⟩))
  | mapped (m : MappedMember) (s : Ty) (a : Option Ty) (t : Ty) (ha : a.isSome = m.asName.isSome) :
    Alike (.member (.mapped m)) (.member (.mapped { m with source := s, asName := a, target := t }))
  | sig (i : NodeInfo) (ps ps' : List TypeParam) (xs xs' : List Param) (r r' : Option Ty) :
    Alike (.sig ⟨i, ps, xs, r⟩) (.sig ⟨i, ps', xs', r'⟩)
  | param (i : NodeInfo) (x : Ident) (t t' : Option Ty) : Alike (.param ⟨i, x, t⟩) (.param ⟨i, x, t'⟩)
  | tparam (i : NodeInfo) (x : Ident) (b d b' d' : Option Ty) (hb : b'.isSome = b.isSome) :
    Alike (.tparam ⟨i, x, b, d⟩) (.tparam ⟨i, x, b', d'⟩)
  | cls (c : ClassDecl) (ps : List TypeParam) (p : Option Ty) (is : List Ty) (ms : List Member)
    (hp : p.isSome = c.parent.isSome) : Alike (.decl (.cls c))
      (.decl (.cls { c with tparams := ps, parent := p, implements := is, members := ms }))
  | iface (i : InterfaceDecl) (ps : List TypeParam) (is : List Ty) (ms : List Member) :
    Alike (.decl (.iface i))
      (.decl (.iface { i with tparams := ps, inheritance := is, members := ms }))
  | enum (e : EnumDecl) (ms : List EnumMember) (t : Option Ty)
    (hms : ms.map EnumMember.bare = e.members.map EnumMember.bare)
    (ht : t.isSome = e.exportedFrom.isSome) :
    Alike (.decl (.enum e)) (.decl (.enum { e with members := ms, exportedFrom := t }))
  | var (v : VarDecl) (t : Option Ty) (e : Option Expr) (ht : t.isSome = v.tpe.isSome)
    (he : e.map Expr.bare = v.expr.map Expr.bare) :
    Alike (.decl (.var v)) (.decl (.var { v with tpe := t, expr := e }))
  | function (f : FunctionDecl) (s : Signature) :
    Alike (.decl (.function f)) (.decl (.function { f with sig := s }))
  | typeAlias (a : AliasDecl) (ps : List TypeParam) (t : Ty) :
    Alike (.decl (.typeAlias a)) (.decl (.typeAlias { a with tparams := ps, target := t }))
  | inline (h : ExportHead) (d d' : Decl) :
    Alike (.decl (.exports h (.inline d))) (.decl (.exports h (.inline d')))

/-- The container with other declarations in it. -/
def Node.withMembers? (ds : List Decl) : Node → Option Node
  | .file f => some (.file { f with members := ds })
  | .decl d => (d.withMembers? ds).map .decl
  | _ => none

/-- The class, interface or object type with other members. -/
def Node.withClassMembers? (ms : List Member) : Node → Option Node
  | .decl d => (d.withClassMembers? ms).map .decl
  | .ty (.object i _) => some (.ty (.object i ms))
  | _ => none

variable {d : Decl} {k : Kind} {n n' : Node}

theorem Node.withMembers?_eq {ds : List Decl} (hds : n.members? = some ds)
    (h : n.withMembers? ds = some n') : n' = n := by
  cases n with
  | file f =>
    cases hds
    cases h
    rfl
  | decl d => cases d <;> cases hds <;> cases h <;> rfl
  | _ => cases h

theorem Node.withClassMembers?_eq {ms : List Member} (hms : n.classMembers? = some ms)
    (h : n.withClassMembers? ms = some n') : n' = n := by
  cases n with
  | decl d => cases d <;> cases hms <;> cases h <;> rfl
  | ty t => cases t <;> cases hms <;> cases h <;> rfl
  | _ => cases h

theorem Node.Alike.members?_eq (h : n.Alike n') : n'.members? = n.members? := by
  cases h <;> rfl

theorem Node.members?_of_classMembers? {ms : List Member} (h : n.classMembers? = some ms) :
    n.members? = none := by
  cases n with
  | decl d => cases d <;> first | rfl | cases h
  | file f => cases h
  | _ => rfl

/-! ## Lists of nodes -/

/-- The nodes of the first list became those of the second, each as `R` says. The flag tells whether one
of them is another node. -/
inductive Walked (R : Node → Node → Bool → Prop) : List Node → List Node → Bool → Prop
  | nil : Walked R [] [] false
  | cons {n n' : Node} {ns ns' : List Node} {b b' : Bool} (h : R n n' b) (hs : Walked R ns ns' b') :
    Walked R (n :: ns) (n' :: ns') (b || b')

namespace Walked

variable {R R' : Node → Node → Bool → Prop} {ns ns' ms ms' : List Node} {b b' : Bool}

theorem one (h : R n n' b) : Walked R [n] [n'] b := by
  simpa using Walked.cons h .nil

theorem append (h : Walked R ns ns' b) (h' : Walked R ms ms' b') :
    Walked R (ns ++ ms) (ns' ++ ms') (b || b') := by
  induction h with
  | nil => exact h'
  | cons h _ ih =>
    rw [Bool.or_assoc]
    exact .cons h ih

theorem mono (hR : ∀ {n n' b}, R n n' b → R' n n' b) (h : Walked R ns ns' b) : Walked R' ns ns' b := by
  induction h with
  | nil => exact .nil
  | cons h _ ih => exact .cons (hR h) ih

theorem length_eq (h : Walked R ns ns' b) : ns'.length = ns.length := by
  induction h with
  | nil => rfl
  | cons _ _ ih => exact congrArg Nat.succ ih

theorem getElem? (h : Walked R ns ns' b) {i : Nat} (hn : ns[i]? = some n) (hn' : ns'[i]? = some n') :
    ∃ b', R n n' b' := by
  induction h generalizing i with
  | nil => cases hn
  | cons h _ ih =>
    cases i with
    | zero =>
      cases hn
      cases hn'
      exact ⟨_, h⟩
    | succ i => exact ih hn hn'

end Walked

/-- The node got other parts, each as `R` says. -/
structure Rebuilt (R : Node → Node → Bool → Prop) (n n' : Node) (b : Bool) : Prop where
  alike : n.Alike n'
  parts : Walked R n.children n'.children b

/-! ## Computations -/

/-- How the computations of a monad end. -/
structure Logic (m : Type → Type) [Monad m] [LawfulMonad m] where
  /-- What is known of the state. -/
  World : Type
  le : World → World → Prop
  refl : ∀ w, le w w
  trans : ∀ {w w' w''}, le w w' → le w' w'' → le w w''
  /-- From the world, the computation ends with a result and a world of that kind. -/
  ends : {α : Type} → World → m α → (α → World → Prop) → Prop
  pure : ∀ {w} {α : Type} {a : α} {P : α → World → Prop}, P a w → ends w (pure a) P
  bind : ∀ {w} {α β : Type} {x : m α} {f : α → m β} {P : α → World → Prop} {Q : β → World → Prop},
    ends w x P → (∀ a w', le w w' → P a w' → ends w' (f a) Q) → ends w (x >>= f) Q

theorem Edited.thenStep_none {m : Type → Type} [Monad m] [LawfulMonad m] {α : Type} (e : Edited α) :
    e.thenStep (fun _ => (pure none : m (Option α))) = pure e := by
  simp [Edited.thenStep, Edited.replace]

theorem Edited.replace_eq {α : Type} (e : Edited α) (r : Option α) :
    e.replace r = ⟨r.getD e.value, r.isSome || e.changed⟩ := by
  cases r <;> rfl

theorem Edited.replace_toOption {α : Type} (e e' : Edited α)
    (h : e'.changed = false → e'.value = e.value) :
    e.replace e'.toOption = ⟨e'.value, e'.changed || e.changed⟩ := by
  obtain ⟨v, b⟩ := e'
  cases b with
  | false =>
    obtain rfl : v = e.value := h rfl
    rfl
  | true => rfl

theorem File.atPlace_changed (f : File) (p : Option CodePath) :
    (f.atPlace p).changed = false → (f.atPlace p).value = f := by
  cases p with
  | none => exact fun _ => rfl
  | some p => exact fun h => nomatch h

theorem Decl.atPlace_changed (d : Decl) (p : Option CodePath) :
    (d.atPlace p).changed = false → (d.atPlace p).value = d := by
  rw [atPlace]
  cases p.bind fun p => d.withCodePath? p with
  | none => exact fun _ => rfl
  | some e => exact fun h => nomatch h

/-- The hooks work when a type, a declaration or a list of members is done, and may place files and
declarations. -/
structure Hooks.Plain {m : Type → Type} [Monad m] {C : Type} (h : Hooks m C) : Prop where
  enterMember : h.enterMember = (fun _ _ => pure ()) := by rfl
  enterTy : h.enterTy = (fun _ _ => pure none) := by rfl
  enterSig : h.enterSig = (fun _ _ => pure ()) := by rfl
  enterParam : h.enterParam = (fun _ _ => pure none) := by rfl
  enterTypeParam : h.enterTypeParam = (fun _ _ => pure ()) := by rfl
  enterExpr : h.enterExpr = (fun _ _ => pure ()) := by rfl
  leaveFile : h.leaveFile = (fun _ _ => pure none) := by rfl
  leaveMember : h.leaveMember = (fun _ _ => pure none) := by rfl
  leaveSig : h.leaveSig = (fun _ _ => pure none) := by rfl
  leaveParam : h.leaveParam = (fun _ _ => pure none) := by rfl
  leaveTypeParam : h.leaveTypeParam = (fun _ _ => pure none) := by rfl
  leaveExpr : h.leaveExpr = (fun _ _ => pure none) := by rfl

/-- Is the node left to the hooks when its parts are done? -/
def Node.isLeft : Node → Bool
  | .ty _ | .decl _ | .file _ => true
  | _ => false

/-- What becomes of the nodes that are walked is as `R` says, if that holds of the nodes directly inside
them. `S` is what is known of a node when its parts and its list of members are done. -/
structure Hooks.Builds {m : Type → Type} [Monad m] [LawfulMonad m] {C : Type} (L : Logic m)
    (h : Hooks m C) (visits : C → Node → Prop) (place : C → Node → Option CodePath → Prop)
    (S R : L.World → L.World → C → Node → Node → Bool → Prop) : Prop where
  idle : h.Plain
  child : ∀ {c n n'}, visits c n → n' ∈ n.children → visits (h.within c n) n'
  mono : ∀ {w₀ w w' w₁ c n n' b}, L.le w₀ w → L.le w' w₁ → R w w' c n n' b → R w₀ w₁ c n n' b
  plain : ∀ {w w' c n n' b}, visits c n → n.members? = none → n.classMembers? = none →
    Rebuilt (R w w' (h.within c n)) n n' b → S w w' c n n' b
  enterFile : ∀ {w c f}, visits c (.file f) →
    L.ends w (h.enterFile (h.within c (.file f)) f) fun p _ => place c (.file f) p
  enterDecl : ∀ {w c d}, visits c (.decl d) →
    L.ends w (h.enterDecl (h.within c (.decl d)) d) fun p _ => place c (.decl d) p
  newMembers : ∀ {w w' c n ds ds' b} owner, visits c n → n.members? = some ds →
    Walked (R w w' (h.within c n)) (ds.map .decl) (ds'.map .decl) b →
    L.ends w' (h.newMembers (h.within c n) owner ds') fun r w'' =>
      ∀ {n'}, n.withMembers? (r.getD ds') = some n' → S w w'' c n n' (r.isSome || b)
  newClassMembers : ∀ {w w' c n n' ms b} owner, visits c n →
    Rebuilt (R w w' (h.within c n)) n n' b → n'.classMembers? = some ms →
    L.ends w' (h.newClassMembers (h.within c n) owner ms) fun r w'' =>
      ∀ {n''}, n'.withClassMembers? (r.getD ms) = some n'' → S w w'' c n n'' (r.isSome || b)
  leaveFile : ∀ {w w' c f f' p b}, visits c (.file f) → place c (.file f) p →
    S w w' c (.file f) (.file f') b →
    R w w' c (.file f) (.file (f'.atPlace p).value) ((f'.atPlace p).changed || b)
  leaveDecl : ∀ {w w' c d d' p b}, visits c (.decl d) → place c (.decl d) p →
    S w w' c (.decl d) (.decl d') b →
    L.ends w' (h.leaveDecl (h.within c (.decl d)) (d'.atPlace p).value) fun r w'' =>
      R w w'' c (.decl d) (.decl (r.getD (d'.atPlace p).value))
        (r.isSome || ((d'.atPlace p).changed || b))
  leaveTy : ∀ {w w' c t t' b}, visits c (.ty t) → S w w' c (.ty t) (.ty t') b →
    L.ends w' (h.leaveTy (h.within c (.ty t)) t') fun r w'' =>
      R w w'' c (.ty t) (.ty (r.getD t')) (r.isSome || b)
  keep : ∀ {w w' c n n' b}, visits c n → n.isLeft = false → S w w' c n n' b → R w w' c n n' b

/-! ## Things put together again -/

/-- The initialisers are the same apart from the types in them. -/
def Kind.Like : (k : Kind) → k.Of → k.Of → Prop
  | .expr, a, b => b.bare = a.bare
  | _, _, _ => True

/-- The value is put together in the way of the form, and these are the nodes that come first in it. -/
def Form.Filled {α : Type} : Form α → List Node → α → Prop
  | .pure a, ns, b => ns = [] ∧ b = a
  | .one k a, ns, b => ns = k.nodes b ∧ k.Like a b
  | .map f x, ns, b => ∃ a, x.Filled ns a ∧ b = f a
  | .ap f x, ns, b => ∃ ns₁ ns₂ g a, f.Filled ns₁ g ∧ x.Filled ns₂ a ∧ ns = ns₁ ++ ns₂ ∧ b = g a

open Form

section
variable {α β γ : Type} {f : α → Form β} {ns : List Node}

theorem Form.filled_each {as : List α} {bs : List β} (h : (each f as).Filled ns bs) (g : β → List Node)
    (p : β → γ) (q : α → γ) (hf : ∀ {a ns b}, (f a).Filled ns b → ns = g b ∧ p b = q a) :
    ns = bs.flatMap g ∧ bs.map p = as.map q := by
  induction as generalizing ns bs with
  | nil =>
    obtain ⟨rfl, rfl⟩ := h
    exact ⟨rfl, rfl⟩
  | cons a as ih =>
    obtain ⟨ns₁, ns₂, _, bs, ⟨b, hb, rfl⟩, hbs, rfl, rfl⟩ := h
    obtain ⟨rfl, hp⟩ := hf hb
    obtain ⟨rfl, hps⟩ := ih hbs
    exact ⟨rfl, by rw [List.map_cons, List.map_cons, hp, hps]⟩

theorem Form.filled_nodes {as bs : List k.Of} (h : (each (one k) as).Filled ns bs) {node : k.Of → Node}
    (hk : ∀ a, k.nodes a = [node a]) : ns = bs.map node := by
  rw [(filled_each h (fun b => [node b]) (fun _ => ()) (fun _ => ()) fun h => ⟨h.1.trans (hk _), rfl⟩).1]
  exact List.map_eq_flatMap.symm

theorem Form.filled_ty {t t' : Option Ty} (h : (opt (one .ty) t).Filled ns t') :
    ns = t'.toList.map .ty ∧ t'.isSome = t.isSome := by
  cases t with
  | none =>
    obtain ⟨rfl, rfl⟩ := h
    exact ⟨rfl, rfl⟩
  | some t =>
    obtain ⟨t', ⟨rfl, -⟩, rfl⟩ := h
    exact ⟨rfl, rfl⟩

theorem Form.filled_expr {e e' : Option Expr} (h : (opt (one .expr) e).Filled ns e') :
    ns = Expr.nodesOption e' ∧ e'.map Expr.bare = e.map Expr.bare := by
  cases e with
  | none =>
    obtain ⟨rfl, rfl⟩ := h
    exact ⟨rfl, rfl⟩
  | some e =>
    obtain ⟨e', ⟨rfl, he⟩, rfl⟩ := h
    exact ⟨rfl, congrArg some he⟩

end

section
variable {ns : List Node}

theorem Expr.of_filledList {es es' : List Expr} (h : (each (one .expr) es).Filled ns es') :
    Expr.bareList es' = Expr.bareList es ∧ ns = Expr.nodesList es' := by
  induction es generalizing ns es' with
  | nil =>
    obtain ⟨rfl, rfl⟩ := h
    exact ⟨rfl, rfl⟩
  | cons e es ih =>
    obtain ⟨_, _, _, es', ⟨e', ⟨rfl, he⟩, rfl⟩, hes, rfl, rfl⟩ := h
    obtain ⟨hbare, rfl⟩ := ih hes
    exact ⟨by rw [bareList, bareList, hbare, show e'.bare = e.bare from he], rfl⟩

theorem Expr.of_filled {e e' : Expr} (h : e.form.Filled ns e') : e'.bare = e.bare ∧ ns = e'.nodes := by
  cases e with
  | call f ps =>
    obtain ⟨_, _, _, ps', ⟨f', ⟨rfl, hf⟩, rfl⟩, hps, rfl, rfl⟩ := h
    obtain ⟨hbare, rfl⟩ := of_filledList hps
    exact ⟨by rw [bare, bare, hbare, show f'.bare = f.bare from hf], rfl⟩
  | unary o e =>
    obtain ⟨e', ⟨rfl, he⟩, rfl⟩ := h
    exact ⟨congrArg (Expr.unary o) he, rfl⟩
  | arrayOf e =>
    obtain ⟨e', ⟨rfl, he⟩, rfl⟩ := h
    exact ⟨congrArg Expr.arrayOf he, rfl⟩
  | binary a o b =>
    obtain ⟨_, _, _, b', ⟨a', ⟨rfl, ha⟩, rfl⟩, ⟨rfl, hb⟩, rfl, rfl⟩ := h
    exact ⟨by rw [bare, bare, show a'.bare = a.bare from ha, show b'.bare = b.bare from hb], rfl⟩
  | cast e t =>
    obtain ⟨_, _, _, t', ⟨e', ⟨rfl, he⟩, rfl⟩, ⟨rfl, -⟩, rfl, rfl⟩ := h
    exact ⟨congrArg (Expr.cast · .this) he, rfl⟩
  | ref | literal =>
    obtain ⟨rfl, rfl⟩ := h
    exact ⟨rfl, rfl⟩

theorem Ty.of_filled {t t' : Ty} (h : t.form.Filled ns t') :
    (Node.ty t).Alike (.ty t') ∧ ns = (Node.ty t').children := by
  cases t with
  | ref | union | intersect =>
    obtain ⟨ts, hts, rfl⟩ := h
    exact ⟨by constructor, filled_nodes hts fun _ => rfl⟩
  | object =>
    obtain ⟨ms, hms, rfl⟩ := h
    exact ⟨by constructor, filled_nodes hms fun _ => rfl⟩
  | tuple i es =>
    obtain ⟨es', hes, rfl⟩ := h
    obtain ⟨rfl, hlabs⟩ := filled_each hes (fun e => [.ty e.tpe]) (·.label) (·.label) fun h => by
      obtain ⟨t, ⟨rfl, -⟩, rfl⟩ := h
      exact ⟨rfl, rfl⟩
    exact ⟨.tuple i es es' hlabs, List.map_eq_flatMap.symm⟩
  | function | constructor | repeated | keyOf | infer | is =>
    obtain ⟨_, ⟨rfl, -⟩, rfl⟩ := h
    exact ⟨by constructor, rfl⟩
  | lookup | extending =>
    obtain ⟨_, _, _, _, ⟨_, ⟨rfl, -⟩, rfl⟩, ⟨rfl, -⟩, rfl, rfl⟩ := h
    exact ⟨by constructor, rfl⟩
  | conditional =>
    obtain ⟨_, _, _, _, ⟨_, _, _, _, ⟨_, ⟨rfl, -⟩, rfl⟩, ⟨rfl, -⟩, rfl, rfl⟩, ⟨rfl, -⟩, rfl, rfl⟩ := h
    exact ⟨by constructor, rfl⟩
  | literal | query | this =>
    obtain ⟨rfl, rfl⟩ := h
    exact ⟨.leaf rfl, rfl⟩

theorem TypeParam.of_filled {p p' : TypeParam} (h : p.form.Filled ns p') :
    (Node.tparam p).Alike (.tparam p') ∧ ns = (Node.tparam p').children := by
  obtain ⟨_, _, _, d, ⟨b, hb, rfl⟩, hd, rfl, rfl⟩ := h
  obtain ⟨i, x, b₀, d₀⟩ := p
  obtain ⟨rfl, hsome⟩ := filled_ty hb
  obtain ⟨rfl, -⟩ := filled_ty hd
  exact ⟨.tparam i x b₀ d₀ b d hsome, rfl⟩

theorem Param.of_filled {p p' : Param} (h : p.form.Filled ns p') :
    (Node.param p).Alike (.param p') ∧ ns = (Node.param p').children := by
  obtain ⟨t, ht, rfl⟩ := h
  obtain ⟨i, x, t₀⟩ := p
  exact ⟨.param i x t₀ t, (filled_ty ht).1⟩

theorem Signature.of_filled {s s' : Signature} (h : s.form.Filled ns s') :
    (Node.sig s).Alike (.sig s') ∧ ns = (Node.sig s').children := by
  obtain ⟨_, _, _, r, ⟨_, _, _, xs, ⟨ps, hps, rfl⟩, hxs, rfl, rfl⟩, hr, rfl, rfl⟩ := h
  obtain ⟨i, ps₀, xs₀, r₀⟩ := s
  obtain rfl := filled_nodes hps fun _ => rfl
  obtain rfl := filled_nodes hxs fun _ => rfl
  obtain ⟨rfl, -⟩ := filled_ty hr
  exact ⟨.sig i ps₀ ps xs₀ xs r₀ r, rfl⟩

theorem Member.of_filled {x x' : Member} (h : x.form.Filled ns x') :
    (Node.member x).Alike (.member x') ∧ ns = (Node.member x').children := by
  unfold Member.form at h
  split at h
  · obtain ⟨_, ⟨rfl, -⟩, rfl⟩ := h
    exact ⟨.call .., rfl⟩
  · obtain ⟨_, ⟨rfl, -⟩, rfl⟩ := h
    exact ⟨.ctor .., rfl⟩
  · obtain ⟨s, ⟨rfl, -⟩, rfl⟩ := h
    exact ⟨.method _ s, rfl⟩
  · obtain ⟨_, _, _, e, ⟨t, ht, rfl⟩, he, rfl, rfl⟩ := h
    obtain ⟨rfl, ht'⟩ := filled_ty ht
    obtain ⟨rfl, he'⟩ := filled_expr he
    exact ⟨.property _ t e ht' he', rfl⟩
  · obtain ⟨_, _, _, v, ⟨k, ⟨rfl, -⟩, rfl⟩, hv, rfl, rfl⟩ := h
    obtain ⟨rfl, -⟩ := filled_ty hv
    exact ⟨.dict .., rfl⟩
  · obtain ⟨v, hv, rfl⟩ := h
    exact ⟨.single .., (filled_ty hv).1⟩
  · obtain ⟨_, _, _, t, ⟨_, _, _, a, ⟨s, ⟨rfl, -⟩, rfl⟩, ha, rfl, rfl⟩, ⟨rfl, -⟩, rfl, rfl⟩ := h
    obtain ⟨rfl, ha'⟩ := filled_ty ha
    exact ⟨.mapped _ s a t ha', rfl⟩

theorem Decl.of_filled {d' : Decl} (hd : d.members? = none) (h : d.form.Filled ns d') :
    (Node.decl d).Alike (.decl d') ∧ ns = (Node.decl d').children := by
  cases d with
  | space | module | augmentation | global => cases hd
  | cls c =>
    obtain ⟨_, _, _, ms, ⟨_, _, _, is, ⟨_, _, _, p, ⟨ps, hps, rfl⟩, hp, rfl, rfl⟩, his, rfl, rfl⟩, hms, rfl, rfl⟩ := h
    obtain rfl := filled_nodes hps fun _ => rfl
    obtain ⟨rfl, hp'⟩ := filled_ty hp
    obtain rfl := filled_nodes his fun _ => rfl
    obtain rfl := filled_nodes hms fun _ => rfl
    exact ⟨.cls c ps p is ms hp', rfl⟩
  | iface i =>
    obtain ⟨_, _, _, ms, ⟨_, _, _, is, ⟨ps, hps, rfl⟩, his, rfl, rfl⟩, hms, rfl, rfl⟩ := h
    obtain rfl := filled_nodes hps fun _ => rfl
    obtain rfl := filled_nodes his fun _ => rfl
    obtain rfl := filled_nodes hms fun _ => rfl
    exact ⟨.iface i ps is ms, rfl⟩
  | enum e =>
    obtain ⟨_, _, _, t, ⟨ms, hms, rfl⟩, ht, rfl, rfl⟩ := h
    obtain ⟨rfl, hms'⟩ := filled_each hms (fun x => Expr.nodesOption x.expr) EnumMember.bare EnumMember.bare
      fun h => by
        obtain ⟨e, he, rfl⟩ := h
        obtain ⟨hnodes, hbare⟩ := filled_expr he
        exact ⟨hnodes, by simp [EnumMember.bare, hbare]⟩
    obtain ⟨rfl, ht'⟩ := filled_ty ht
    exact ⟨.enum e ms t hms' ht', rfl⟩
  | var v =>
    obtain ⟨_, _, _, e, ⟨t, ht, rfl⟩, he, rfl, rfl⟩ := h
    obtain ⟨rfl, ht'⟩ := filled_ty ht
    obtain ⟨rfl, he'⟩ := filled_expr he
    exact ⟨.var v t e ht' he', rfl⟩
  | function f =>
    obtain ⟨s, ⟨rfl, -⟩, rfl⟩ := h
    exact ⟨.function f s, rfl⟩
  | typeAlias a =>
    obtain ⟨_, _, _, t, ⟨ps, hps, rfl⟩, ⟨rfl, -⟩, rfl, rfl⟩ := h
    obtain rfl := filled_nodes hps fun _ => rfl
    exact ⟨.typeAlias a ps t, rfl⟩
  | exports x e =>
    cases e with
    | inline d =>
      obtain ⟨d', ⟨rfl, -⟩, rfl⟩ := h
      exact ⟨.inline x d d', rfl⟩
    | _ =>
      obtain ⟨rfl, rfl⟩ := h
      exact ⟨.leaf rfl, rfl⟩
  | _ =>
    obtain ⟨rfl, rfl⟩ := h
    exact ⟨.leaf rfl, rfl⟩

theorem Decl.members_of_filled {d' : Decl} {ds : List Decl} (hds : d.members? = some ds)
    (h : d.form.Filled ns d') : ∃ ds', d.withMembers? ds' = some d' ∧ ns = ds'.map .decl := by
  cases d with
  | space | module | augmentation | global =>
    obtain ⟨ds', hds', rfl⟩ := h
    exact ⟨ds', rfl, filled_nodes hds' fun _ => rfl⟩
  | _ => cases hds

theorem Kind.inner_of_filled {a b : k.Of} (h : (k.form a).Filled ns b) : ns = k.inner b := by
  cases k with
  | file =>
    obtain ⟨ds, hds, rfl⟩ := h
    exact filled_nodes hds fun _ => rfl
  | decl =>
    cases hds : Decl.members? a with
    | none => exact (Decl.of_filled hds h).2
    | some ds =>
      obtain ⟨ds', hb, rfl⟩ := Decl.members_of_filled hds h
      cases a <;> cases hb <;> rfl
  | member => exact (Member.of_filled h).2
  | ty => exact (Ty.of_filled h).2
  | sig => exact (Signature.of_filled h).2
  | param => exact (Param.of_filled h).2
  | tparam => exact (TypeParam.of_filled h).2
  | expr => exact (Expr.of_filled h).2

end

/-! ## The walk -/

theorem Node.Alike.isSome_classMembers? (h : n.Alike n') :
    n'.classMembers?.isSome = n.classMembers?.isSome := by
  cases h <;> rfl

theorem Walked.of_one {R : Node → Node → Bool → Prop} {b : Bool} (h : Walked R [n] [n'] b) :
    R n n' b := by
  cases h with
  | cons h hs =>
    cases hs
    rwa [Bool.or_false]

/-- What becomes of a thing: initialisers stay apart from the types in them. -/
structure Kind.Becomes (R : Node → Node → Bool → Prop) (k : Kind) (a b : k.Of) (changed : Bool) : Prop where
  like : k.Like a b
  walked : Walked R (k.nodes a) (k.nodes b) changed

section
variable {m : Type → Type} [Monad m] [LawfulMonad m] {C : Type} {L : Logic m} {h : Hooks m C}
  {visits : C → Node → Prop} {place : C → Node → Option CodePath → Prop}
  {S R : L.World → L.World → C → Node → Node → Bool → Prop}

variable {α : Type}

theorem Logic.ends.pure {w : L.World} {a : α} {P : α → L.World → Prop} (h : P a w) :
    L.ends w (Pure.pure a) P :=
  L.pure h

theorem Logic.ends.bind {β : Type} {w : L.World} {x : m α} {f : α → m β} {P : α → L.World → Prop}
    {Q : β → L.World → Prop} (hx : L.ends w x P) (hf : ∀ a w', L.le w w' → P a w' → L.ends w' (f a) Q) :
    L.ends w (x >>= f) Q :=
  L.bind hx hf

theorem Logic.imp {w : L.World} {x : m α} {P Q : α → L.World → Prop} (hx : L.ends w x P)
    (hPQ : ∀ a w', P a w' → Q a w') : L.ends w x Q := by
  have hbind := L.bind hx fun a w' _ ha => L.pure (hPQ a w' ha)
  rwa [bind_pure] at hbind

/-- From every world the computation ends, with whatever result. -/
def Logic.Ends (L : Logic m) (x : m α) : Prop :=
  ∀ w, L.ends w x fun _ _ => True

theorem Logic.Ends.pure {a : α} : L.Ends (Pure.pure a) := fun _ => L.pure trivial

theorem Logic.Ends.bind {β : Type} {x : m α} {f : α → m β} (hx : L.Ends x) (hf : ∀ a, L.Ends (f a)) :
    L.Ends (x >>= f) :=
  fun w => L.bind (hx w) fun a w' _ _ => hf a w'

theorem Logic.Ends.of_ends {x : m α} {P : α → L.World → Prop} (hx : ∀ w, L.ends w x P) : L.Ends x :=
  fun w => L.imp (hx w) fun _ _ _ => trivial

theorem Logic.thenStep {w : L.World} {e : Edited α} {step : α → m (Option α)}
    {P : Option α → L.World → Prop} {Q : Edited α → L.World → Prop} (hstep : L.ends w (step e.value) P)
    (hQ : ∀ r w', P r w' → Q ⟨r.getD e.value, r.isSome || e.changed⟩ w') :
    L.ends w (e.thenStep step) Q :=
  L.bind hstep fun r w' _ hr => L.pure (e.replace_eq r ▸ hQ r w' hr)

variable {c : C}

/-- Where the hooks have nothing to do, the walk goes on with the parts. -/
theorem Hooks.Plain.walk_eq (hh : h.Plain) {a : k.Of} (hn : k.nodes a = [n]) (hleft : n.isLeft = false)
    (hk : k ≠ .expr) : k.walk h c a = (k.form a).walk h (h.within c n) := by
  cases k with
  | file | decl | ty =>
    cases hn
    cases hleft
  | member | sig | param | tparam =>
    cases hn
    simp only [Kind.walk, walkMember_eq, walkSig_eq, walkParam_eq, walkTypeParam_eq, hh.enterMember,
      hh.enterSig, hh.enterParam, hh.enterTypeParam, hh.leaveMember, hh.leaveSig, hh.leaveParam,
      hh.leaveTypeParam, Edited.thenStep_none, Option.map_none, Edited.replace, pure_bind, bind_pure]
    rfl
  | expr => exact absurd rfl hk

variable (hh : h.Builds L visits place S R)
include hh

theorem Form.walk_builds {x : Form α} (hx : x.All fun k a => ∀ w,
      L.ends w (k.walk h c a) fun e w' => k.Becomes (R w w' c) a e.value e.changed) (w : L.World) :
    L.ends w (x.walk h c) fun e w' => ∃ ns, x.Filled ns e.value ∧ Walked (R w w' c) x.nodes ns e.changed := by
  induction x generalizing w with
  | pure a => exact L.pure ⟨[], ⟨rfl, rfl⟩, .nil⟩
  | one k a => exact L.imp (hx w) fun e w' he => ⟨_, ⟨rfl, he.like⟩, he.walked⟩
  | map f x ih =>
    exact L.bind (ih hx w) fun e w' _ ⟨ns, hfill, hns⟩ => L.pure ⟨ns, ⟨_, hfill, rfl⟩, hns⟩
  | ap f x ihf ihx =>
    refine L.bind (ihf hx.1 w) fun f' w₁ hw₁ ⟨ns, hf, hns⟩ => ?_
    refine L.bind (ihx hx.2 w₁) fun x' w₂ hw₂ ⟨ms, hx, hms⟩ => L.pure ?_
    exact ⟨ns ++ ms, ⟨ns, ms, _, _, hf, hx, rfl, rfl⟩,
      (hns.mono (hh.mono (L.refl _) hw₂)).append (hms.mono (hh.mono hw₁ (L.refl _)))⟩

theorem Hooks.Builds.renewTy {t : Ty} (hv : visits c (.ty t)) (owner : Node) {e : Edited Ty} {w w' : L.World}
    (hbuilt : Rebuilt (R w w' (h.within c (.ty t))) (.ty t) (.ty e.value) e.changed) :
    L.ends w' (h.renewTy (h.within c (.ty t)) owner e) fun e' w'' =>
      S w w'' c (.ty t) (.ty e'.value) e'.changed := by
  obtain ⟨t', b⟩ := e
  have hplain : (Node.ty t').classMembers? = none → S w w' c (.ty t) (.ty t') b := fun hms =>
    hh.plain hv rfl (by simpa [hms] using hbuilt.alike.isSome_classMembers?) hbuilt
  unfold Hooks.renewTy
  split
  · rename_i i ms ht
    obtain rfl : t' = .object i ms := ht
    refine L.bind (hh.newClassMembers owner hv hbuilt rfl) fun r w'' _ hr => L.pure ?_
    cases r <;> exact hr rfl
  · rename_i ht
    exact L.pure (hplain (by cases t' <;> first | rfl | exact absurd rfl (ht _ _)))

theorem Hooks.Builds.renewDecl (hv : visits c (.decl d)) (owner : Node) {e : Edited Decl}
    {ns : List Node} {w w' : L.World} (hfill : d.form.Filled ns e.value)
    (hns : Walked (R w w' (h.within c (.decl d))) (Node.decl d).children ns e.changed) :
    L.ends w' (h.renewDecl (h.within c (.decl d)) owner d e) fun e' w'' =>
      S w w'' c (.decl d) (.decl e'.value) e'.changed := by
  obtain ⟨d', b⟩ := e
  unfold Hooks.renewDecl
  split
  · rename_i ds hds
    obtain ⟨ds', hd', rfl⟩ := Decl.members_of_filled hds hfill
    have hwith : ∀ ds, d'.withMembers? ds = d.withMembers? ds ∧ d'.members? = some ds' := by
      intro ds
      cases d <;> cases hd' <;> exact ⟨rfl, rfl⟩
    have hch : (Node.decl d).children = ds.map .decl := by
      cases d <;> cases hds <;> rfl
    rw [(hwith []).2, Option.getD_some]
    refine L.bind (hh.newMembers owner hv hds (hch ▸ hns)) fun r w'' _ hr => L.pure ?_
    cases r with
    | none => exact hr (congrArg (Option.map Node.decl) hd')
    | some ds'' =>
      have hsome : ∃ d'', d.withMembers? ds'' = some d'' := by
        cases d <;> cases hd' <;> exact ⟨_, rfl⟩
      obtain ⟨d'', hd''⟩ := hsome
      rw [Option.bind_some, (hwith ds'').1, hd'']
      exact hr (congrArg (Option.map Node.decl) hd'')
  · rename_i hds
    obtain ⟨halike, rfl⟩ := Decl.of_filled hds hfill
    split
    · rename_i ms₀ hms₀
      obtain ⟨ms, hms⟩ := Option.isSome_iff_exists.1 (halike.isSome_classMembers?.trans
        (Option.isSome_iff_exists.2 ⟨ms₀, hms₀⟩))
      rw [show d'.classMembers? = some ms from hms, Option.getD_some]
      refine L.bind (hh.newClassMembers owner hv ⟨halike, hns⟩ hms) fun r w'' _ hr => L.pure ?_
      cases d' <;> cases hms <;> cases r <;> exact hr rfl
    · rename_i hms
      exact L.pure (hh.plain hv hds hms ⟨halike, hns⟩)

omit hh in
theorem Kind.alike_of_filled {ns : List Node} {a b : k.Of} (h : (k.form a).Filled ns b) (hn : k.nodes a = [n])
    (hn' : k.nodes b = [n']) (hleft : n.isLeft = false) (hk : k ≠ .expr) : n.Alike n' := by
  cases k with
  | file | decl | ty =>
    cases hn
    cases hleft
  | member =>
    cases hn
    cases hn'
    exact (Member.of_filled h).1
  | sig =>
    cases hn
    cases hn'
    exact (Signature.of_filled h).1
  | param =>
    cases hn
    cases hn'
    exact (Param.of_filled h).1
  | tparam =>
    cases hn
    cases hn'
    exact (TypeParam.of_filled h).1
  | expr => exact absurd rfl hk

/-- **What becomes of a thing** is as `R` says, if the hooks keep what becomes of nodes as `R` says. -/
theorem Kind.walk_builds {a : k.Of} (hv : ∀ n ∈ k.nodes a, visits c n) (w : L.World) :
    L.ends w (k.walk h c a) fun e w' => k.Becomes (R w w' c) a e.value e.changed := by
  induction k, a using Kind.induct generalizing c w with
  | step k a ih =>
  have hform : ∀ {c'} w, (∀ n ∈ k.inner a, visits c' n) → L.ends w ((k.form a).walk h c') fun e w' =>
      ∃ ns, (k.form a).Filled ns e.value ∧ Walked (R w w' c') (k.inner a) ns e.changed := by
    intro c' w hin
    rw [← k.nodes_form a] at hin ⊢
    exact Form.walk_builds hh ((ih.and (Form.all_nodes.2 hin)).mono fun _ _ h w => h.1 h.2 w) w
  cases k with
  | file =>
    have hn : visits c (.file a) := hv _ (.head _)
    simp only [walk, walkFile_eq, hh.idle.leaveFile, Edited.thenStep_none]
    refine L.bind (hh.enterFile hn) fun p w₀ hw₀ hp => ?_
    refine L.bind (hform w₀ fun _ => hh.child hn) fun e w₁ _ hbuilt => ?_
    obtain ⟨ns, ⟨ds, hds, he⟩, hns⟩ := hbuilt
    obtain ⟨f', b⟩ := e
    obtain rfl : f' = _ := he
    obtain rfl := Form.filled_nodes hds fun _ => rfl
    refine L.bind (hh.newMembers _ hn rfl hns) fun r w₂ _ hr => L.pure ?_
    have hS : S w₀ w₂ c (.file a) (.file { a with members := r.getD ds }) (r.isSome || b) := hr rfl
    rw [Edited.replace_toOption _ _ (File.atPlace_changed _ p)]
    cases r <;> exact ⟨trivial, .one (hh.mono hw₀ (L.refl _) (hh.leaveFile hn hp hS))⟩
  | decl =>
    have hn : visits c (.decl a) := hv _ (.head _)
    simp only [walk, walkDecl_eq]
    refine L.bind (hh.enterDecl hn) fun p w₀ hw₀ hp => ?_
    refine L.bind (hform w₀ fun _ => hh.child hn) fun e w₁ _ hbuilt => ?_
    obtain ⟨ns, hfill, hns⟩ := hbuilt
    refine L.bind (hh.renewDecl hn _ hfill hns) fun e w₂ _ hS => ?_
    rw [Edited.replace_toOption e _ (Decl.atPlace_changed e.value p)]
    exact L.thenStep (hh.leaveDecl hn hp hS) fun _ _ hR => ⟨trivial, .one (hh.mono hw₀ (L.refl _) hR)⟩
  | ty =>
    have hn : visits c (.ty a) := hv _ (.head _)
    simp only [walk, walkTy_eq, hh.idle.enterTy, pure_bind]
    refine L.bind (hform w fun _ => hh.child hn) fun e w₁ _ hbuilt => ?_
    obtain ⟨ns, hfill, hns⟩ := hbuilt
    obtain ⟨halike, rfl⟩ := Ty.of_filled hfill
    refine L.bind (hh.renewTy hn _ ⟨halike, hns⟩) fun e w₂ _ hS => ?_
    rw [e.renamed_none]
    exact L.thenStep (hh.leaveTy hn hS) fun _ _ hR => ⟨trivial, .one hR⟩
  | member | sig | param | tparam =>
    have hn := hv _ (.head _)
    rw [hh.idle.walk_eq rfl rfl (by decide)]
    refine L.imp (hform w fun _ => hh.child hn) fun e w' hbuilt => ?_
    obtain ⟨ns, hfill, hns⟩ := hbuilt
    obtain rfl := Kind.inner_of_filled hfill
    have halike := Kind.alike_of_filled hfill rfl rfl rfl (by decide)
    exact ⟨trivial, .one (hh.keep hn rfl (hh.plain hn rfl rfl ⟨halike, hns⟩))⟩
  | expr =>
    simp only [walk, walkExpr_eq, hh.idle.enterExpr, hh.idle.leaveExpr, pure_bind, Edited.thenStep_none,
      bind_pure]
    refine L.imp (hform w hv) fun e w' hbuilt => ?_
    obtain ⟨ns, hfill, hns⟩ := hbuilt
    obtain ⟨hbare, rfl⟩ := Expr.of_filled hfill
    exact ⟨hbare, hns⟩

theorem Kind.walk_builds_node {a : k.Of} (hn : k.nodes a = [n]) (hv : visits c n) (w : L.World) :
    L.ends w (k.walk h c a) fun e w' =>
      ∀ {n'}, k.nodes e.value = [n'] → R w w' c n n' e.changed := by
  refine L.imp (k.walk_builds hh (hn ▸ List.forall_mem_singleton.2 hv) w) fun e w' he n' hn' => ?_
  have hwlk := he.walked
  rw [hn, hn'] at hwlk
  exact hwlk.of_one

theorem walkTy_builds (t : Ty) (hv : visits c (.ty t)) (w : L.World) :
    L.ends w (walkTy h c t) fun e w' => R w w' c (.ty t) (.ty e.value) e.changed :=
  L.imp (Kind.walk_builds_node hh (k := .ty) rfl hv w) fun _ _ he => he rfl

theorem walkSig_builds (s : Signature) (hv : visits c (.sig s)) (w : L.World) :
    L.ends w (walkSig h c s) fun e w' => R w w' c (.sig s) (.sig e.value) e.changed :=
  L.imp (Kind.walk_builds_node hh (k := .sig) rfl hv w) fun _ _ he => he rfl

theorem walkFile_builds (f : File) (hv : visits c (.file f)) (w : L.World) :
    L.ends w (walkFile h c f) fun e w' => R w w' c (.file f) (.file e.value) e.changed :=
  L.imp (Kind.walk_builds_node hh (k := .file) rfl hv w) fun _ _ he => he rfl

end

end Ambient
