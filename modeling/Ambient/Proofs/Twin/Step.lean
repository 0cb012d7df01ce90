import Ambient.Proofs.Relabel
import Ambient.Proofs.Twin.Equal

/-!
# Computations in step

Two computations go in step when they make the same steps on twins: they ask alike, branch alike and
end with twins. A `Pairing` is a notion of going in step that is kept when computations are put after
each other. What is written once for every monad, as the numbering of a tree, then takes twins to twins
(`File.renumber_twin`).

Twins are put together in the same way from things that are twins (`Form.Twin`), whatever identities they
are given (`Kind.Twin.form_withId`).
-/

namespace Ambient

/-- Both fail alike, or both have results, which `R` relates. -/
inductive Alike {ε α β : Type} (R : α → β → Prop) : Except ε α → Except ε β → Prop
  | error {e : ε} : Alike R (.error e) (.error e)
  | ok {a : α} {b : β} (h : R a b) : Alike R (.ok a) (.ok b)

/-- A relation between the computations of two monads, kept when they are put after each other. -/
structure Pairing (m n : Type → Type) [Monad m] [Monad n] [LawfulMonad m] [LawfulMonad n] where
  rel : {α β : Type} → (α → β → Prop) → m α → n β → Prop
  pure : ∀ {α β : Type} {R : α → β → Prop} {a : α} {b : β}, R a b → rel R (pure a) (pure b)
  bind : ∀ {α β γ δ : Type} {R : α → β → Prop} {S : γ → δ → Prop} {x : m α} {y : n β} {f : α → m γ}
    {g : β → n δ}, rel R x y → (∀ a b, R a b → rel S (f a) (g b)) → rel S (x >>= f) (y >>= g)

namespace Pairing

/-- Pure computations go in step when their results are related. -/
def ofId : Pairing Id Id where
  rel R x y := R x y
  pure h := h
  bind hx hf := hf _ _ hx

/-- Computations that both give a result or both give none. -/
def ofOption : Pairing Option Option where
  rel := Option.Rel
  pure := .some
  bind hx hf := hx.bind fun hab => hf _ _ hab

/-- Computations that fail alike, or give results that are related. -/
def ofExcept (ε : Type) : Pairing (Except ε) (Except ε) where
  rel := Alike
  pure := .ok
  bind hx hf := by
    cases hx with
    | error => exact .error
    | ok hab => exact hf _ _ hab

section
variable {m n : Type → Type} [Monad m] [Monad n] [LawfulMonad m] [LawfulMonad n] (P : Pairing m n)
  {σ τ : Type} {S : σ → τ → Prop}

/-- Computations on states that go in step from related states, and leave related states. -/
def stateT (S : σ → τ → Prop) : Pairing (StateT σ m) (StateT τ n) where
  rel R x y := ∀ s t, S s t → P.rel (Both R S) (x.run s) (y.run t)
  pure hab _ _ h := P.pure ⟨hab, h⟩
  bind hx hf s t h := by
    rw [StateT.run_bind, StateT.run_bind]
    exact P.bind (hx s t h) fun _ _ hab => hf _ _ hab.fst _ _ hab.snd

theorem get_rel : (P.stateT S).rel S get get := fun _ _ h => P.pure ⟨h, h⟩

theorem set_rel {s : σ} {t : τ} (h : S s t) : (P.stateT S).rel Eq (set s : StateT σ m PUnit) (set t) :=
  fun _ _ _ => P.pure ⟨rfl, h⟩

theorem modify_rel {f : σ → σ} {g : τ → τ} (h : ∀ {s t}, S s t → S (f s) (g t)) :
    (P.stateT S).rel Eq (modify f : StateT σ m PUnit) (modify g) :=
  fun _ _ hst => P.pure ⟨rfl, h hst⟩

theorem lift_rel {α β : Type} {R : α → β → Prop} {x : m α} {y : n β} (h : P.rel R x y) :
    (P.stateT S).rel R (StateT.lift x) (StateT.lift y) :=
  fun _ _ hst => P.bind h fun _ _ hab => P.pure ⟨hab, hst⟩

end

section
variable {m n : Type → Type} [Monad m] [Monad n] [LawfulMonad m] [LawfulMonad n] (P : Pairing m n)
  {α β γ δ : Type}
  {R : α → β → Prop} {S : γ → δ → Prop} {as : List α} {bs : List β}

variable {P} in
theorem rel.pure {a : α} {b : β} (h : R a b) : P.rel R (Pure.pure a) (Pure.pure b) := P.pure h

variable {P} in
theorem rel.bind {x : m α} {y : n β} {f : α → m γ} {g : β → n δ} (hx : P.rel R x y)
    (hf : ∀ a b, R a b → P.rel S (f a) (g b)) : P.rel S (x >>= f) (y >>= g) :=
  P.bind hx hf

theorem mono {R' : α → β → Prop} {x : m α} {y : n β} (h : P.rel R x y) (hR : ∀ {a b}, R a b → R' a b) :
    P.rel R' x y := by
  have hbind : P.rel R' (x >>= fun a => Pure.pure a) (y >>= fun b => Pure.pure b) :=
    P.bind h fun _ _ hab => P.pure (hR hab)
  rwa [bind_pure, bind_pure] at hbind

theorem mapM {f : α → m γ} {g : β → n δ} (h : List.Forall₂ R as bs)
    (hfg : ∀ {a b}, R a b → P.rel S (f a) (g b)) :
    P.rel (List.Forall₂ S) (as.mapM f) (bs.mapM g) := by
  induction h with
  | nil =>
    rw [List.mapM_nil, List.mapM_nil]
    exact P.pure .nil
  | cons hab _ ih =>
    rw [List.mapM_cons, List.mapM_cons]
    exact P.bind (hfg hab) fun _ _ hc => P.bind ih fun _ _ hcs => P.pure (.cons hc hcs)

end

end Pairing

/-! ## Forms -/

/-- The things differ in identities and comments only. -/
def Kind.Twin (L : Leeway) : (k : Kind) → k.Of → k.Of → Prop
  | .file => File.Twin L
  | .decl => Decl.Twin L
  | .member => Member.Twin L
  | .ty => Ty.Twin L
  | .sig => Signature.Twin L
  | .param => Param.Twin L
  | .tparam => TypeParam.Twin L
  | .expr => Expr.Twin L

/-- **A thing is its own twin.** -/
theorem Kind.twin_self {L : Leeway} (hL : L.Reflexive) (k : Kind) (a : k.Of) : k.Twin L a a := by
  have hinfo : ∀ i : NodeInfo, i.Twin L i := fun i => ⟨hL.id _, hL.comments _⟩
  have hints : ∀ i : NodeInfo, i.Hinted L i := fun i => ⟨hL.id _, hL.hints _⟩
  induction k, a using Kind.induct with
  | step k a ih =>
  cases k <;> cases a
  case decl.exports h x => cases x <;> exact .exports ⟨hinfo _, rfl, rfl⟩ (by constructor <;> exact ih)
  case decl.enum e =>
    simp only [form, Decl.form, EnumMember.form, Form.All, Form.all_each, Form.all_opt] at ih
    exact .enum ⟨hinfo _, rfl, rfl, rfl,
      List.forall₂_same.2 fun m hm => ⟨hL.comments _, rfl, .self (ih.1 m hm)⟩, rfl, .self ih.2, rfl, rfl⟩
  case ty.tuple i es =>
    simp only [form, Ty.form, TupleElem.form, Form.All, Form.all_each] at ih
    refine .tuple (hL.id _) (List.forall₂_same.2 fun e he => ?_)
    cases e
    exact .mk (ih _ he)
  case member.index i =>
    obtain ⟨i, ro, l, x, v⟩ := i
    cases x <;> simp only [form, Member.form, Form.All, Form.all_opt] at ih
    · exact .dict (hinfo _) ih.1 (.self ih.2)
    · exact .single (hinfo _) (.self ih)
  case member.call x | member.ctor x | member.function x =>
    cases x
    constructor <;> first | exact hinfo _ | exact ih
  case member.property x =>
    cases x
    simp only [form, Member.form, Form.All, Form.all_opt] at ih
    exact .property (hinfo _) (.self ih.1) (.self ih.2)
  case member.mapped x =>
    cases x
    simp only [form, Member.form, Form.All, Form.all_opt] at ih
    exact .mapped (hints _) ih.1.1 (.self ih.1.2) ih.2
  -- Of all others the parts are twins of themselves, one by one, in lists and in options.
  all_goals
    simp only [form, File.form, Decl.form, Ty.form, Signature.form, Param.form, TypeParam.form, Expr.form, Form.All,
      Form.all_each, Form.all_opt] at ih
    try casesm* _ ∧ _
    repeat' first
      | assumption | exact hinfo _ | exact hints _ | exact hL.id _ | exact List.forall₂_same.2 ‹_›
      | exact .self ‹_› | constructor

/-! ## Twins are equal -/

theorem Leeway.any_reflexive : Leeway.any.Reflexive :=
  ⟨fun _ => trivial, fun _ => trivial, fun _ => trivial⟩

theorem File.Twin.beq {L : Leeway} {f g : File} (h : f.Twin L g) : (f == g) = true := by
  have hself : f.Twin .any f := Kind.twin_self Leeway.any_reflexive .file f
  have hmems := list_beq_twin Decl.beq_twin hself.members h.members
  change f.same g = true
  simp [File.same, h.directives, h.codePath, ← hmems]

/-- The two forms are put together in the same way from twins by `L`. From twins by `K` they put together
related values. -/
inductive Form.Twin (L K : Leeway) : {α β : Type} → (α → β → Prop) → Form α → Form β → Prop
  | pure {α β : Type} {R : α → β → Prop} {a : α} {b : β} (h : R a b) :
    Form.Twin L K R (.pure a) (.pure b)
  | one {k : Kind} {a b : k.Of} (h : k.Twin L a b) : Form.Twin L K (k.Twin K) (.one k a) (.one k b)
  | map {α β γ δ : Type} {R : α → β → Prop} {S : γ → δ → Prop} {f : α → γ} {g : β → δ} {x : Form α}
    {y : Form β} (hx : Form.Twin L K R x y) (h : ∀ {a b}, R a b → S (f a) (g b)) :
    Form.Twin L K S (.map f x) (.map g y)
  | ap {α β γ δ : Type} {R : α → β → Prop} {S : γ → δ → Prop} {f : Form (α → γ)} {g : Form (β → δ)}
    {x : Form α} {y : Form β} (hf : Form.Twin L K (fun f g => ∀ a b, R a b → S (f a) (g b)) f g)
    (hx : Form.Twin L K R x y) : Form.Twin L K S (.ap f x) (.ap g y)

section
variable {L K : Leeway} {α β γ δ : Type} {R : α → β → Prop} {S : γ → δ → Prop} {f : α → Form γ}
  {g : β → Form δ} {k : Kind}

theorem Form.Twin.each {as : List α} {bs : List β} (h : List.Forall₂ R as bs)
    (hfg : ∀ {a b}, R a b → Form.Twin L K S (f a) (g b)) :
    Form.Twin L K (List.Forall₂ S) (Form.each f as) (Form.each g bs) := by
  induction h with
  | nil => exact .pure .nil
  | cons hab _ ih => exact .ap ((hfg hab).map fun h _ _ hs => .cons h hs) ih

theorem Form.Twin.ones {as bs : List k.Of} (h : List.Forall₂ (k.Twin L) as bs) :
    Form.Twin L K (List.Forall₂ (k.Twin K)) (.each (.one k) as) (.each (.one k) bs) :=
  .each h .one

theorem Form.Twin.one? {a b : Option k.Of} (h : Option.Rel (k.Twin L) a b) :
    Form.Twin L K (Option.Rel (k.Twin K)) (.opt (.one k) a) (.opt (.one k) b) := by
  cases h with
  | none => exact .pure .none
  | some hab => exact .map (.one hab) .some

end

section
variable {L K : Leeway} (hcomments : ∀ {cs ds}, L.comments cs ds → K.comments cs ds)
  (hhints : ∀ {cs ds}, L.hints cs ds → K.hints cs ds) {i j : NodeId}

include hcomments in
theorem NodeInfo.Twin.withId {x y : NodeInfo} (h : x.Twin L y) (hid : K.id i j) :
    NodeInfo.Twin K { x with id := i } { y with id := j } :=
  ⟨hid, hcomments h.comments⟩

include hhints in
theorem NodeInfo.Hinted.withId {x y : NodeInfo} (h : x.Hinted L y) (hid : K.id i j) :
    NodeInfo.Hinted K { x with id := i } { y with id := j } :=
  ⟨hid, hhints h.hints⟩

include hcomments hhints

theorem Ty.Twin.form_withId {t u : Ty} (h : t.Twin L u)
    (hid : (Kind.ownId? .ty t).isSome = true → K.id i j) :
    Form.Twin L K (Ty.Twin K) (t.withId i).form (u.withId j).form := by
  cases h with
  | ref hi hts => exact .map (.ones (k := .ty) hts) (.ref (hi.withId hcomments (hid rfl)))
  | literal hi => exact .pure (.literal (hid rfl))
  | object hi hms => exact .map (.ones (k := .member) hms) (.object (hi.withId hhints (hid rfl)))
  | function hs => exact .map (.one (k := .sig) hs) .function
  | constructor hi hs => exact .map (.one (k := .sig) hs) (.constructor (hid rfl))
  | tuple hi hes =>
    refine .map (.each hes fun he => ?_) (.tuple (hid rfl))
    cases he with | mk ht => exact .map (.one (k := .ty) ht) .mk
  | query hi => exact .pure (.query (hid rfl))
  | repeated hi ht => exact .map (.one (k := .ty) ht) (.repeated (hid rfl))
  | keyOf hi ht => exact .map (.one (k := .ty) ht) (.keyOf (hid rfl))
  | lookup hi ht hk =>
    exact .ap (.map (.one (k := .ty) ht) fun h _ _ => .lookup (hid rfl) h) (.one (k := .ty) hk)
  | this => exact .pure .this
  | union hi hts => exact .map (.ones (k := .ty) hts) (.union (hid rfl))
  | intersect hi hts => exact .map (.ones (k := .ty) hts) (.intersect (hid rfl))
  | conditional hi hp ht he =>
    exact .ap (.ap (.map (.one (k := .ty) hp) fun h _ _ h' _ _ => .conditional (hid rfl) h h')
      (.one (k := .ty) ht)) (.one (k := .ty) he)
  | extending hi ht hb =>
    exact .ap (.map (.one (k := .ty) ht) fun h _ _ => .extending (hid rfl) h) (.one (k := .ty) hb)
  | infer hp => exact .map (.one (k := .tparam) hp) .infer
  | is hi ht => exact .map (.one (k := .ty) ht) (.is (hid rfl))

theorem Member.Twin.form_withId {x y : Member} (h : x.Twin L y) (hid : K.id i j) :
    Form.Twin L K (Member.Twin K) (x.withId i).form (y.withId j).form := by
  cases h with
  | call hi hs => exact .map (.one (k := .sig) hs) (.call (hi.withId hcomments hid))
  | ctor hi hs => exact .map (.one (k := .sig) hs) (.ctor (hi.withId hcomments hid))
  | function hi hs => exact .map (.one (k := .sig) hs) (.function (hi.withId hcomments hid))
  | property hi ht he =>
    exact .ap (.map (.one? (k := .ty) ht) fun h _ _ => .property (hi.withId hcomments hid) h)
      (.one? (k := .expr) he)
  | dict hi hk hv =>
    exact .ap (.map (.one (k := .ty) hk) fun h _ _ => .dict (hi.withId hcomments hid) h)
      (.one? (k := .ty) hv)
  | single hi hv => exact .map (.one? (k := .ty) hv) (.single (hi.withId hcomments hid))
  | mapped hi hs ha ht =>
    exact .ap (.ap (.map (.one (k := .ty) hs) fun h _ _ h' _ _ => .mapped (hi.withId hhints hid) h h')
      (.one? (k := .ty) ha)) (.one (k := .ty) ht)

omit hcomments hhints in
theorem Expr.Twin.form {e f : Expr} (h : e.Twin L f) : Form.Twin L K (Expr.Twin K) e.form f.form := by
  cases h with
  | ref => exact .pure .ref
  | literal => exact .pure .literal
  | call hf hps => exact .ap (.map (.one (k := .expr) hf) fun h _ _ => .call h) (.ones (k := .expr) hps)
  | unary he => exact .map (.one (k := .expr) he) .unary
  | binary ha hb => exact .ap (.map (.one (k := .expr) ha) fun h _ _ => .binary h) (.one (k := .expr) hb)
  | cast he ht => exact .ap (.map (.one (k := .expr) he) fun h _ _ => .cast h) (.one (k := .ty) ht)
  | arrayOf he => exact .map (.one (k := .expr) he) .arrayOf

omit hhints in
theorem EnumMember.Twin.form {x y : EnumMember} (h : x.Twin L y) :
    Form.Twin L K (EnumMember.Twin K) x.form y.form :=
  .map (.one? (k := .expr) h.expr) fun he => ⟨hcomments h.comments, h.name, he⟩

omit hhints in
theorem Decl.Twin.form_withId {x y : Decl} (h : x.Twin L y) (hid : K.id i j) :
    Form.Twin L K (Decl.Twin K) (x.withId i).form (y.withId j).form := by
  cases h with
  | space hh hms =>
    exact .map (.ones (k := .decl) hms) (.space { hh with info := hh.info.withId hcomments hid })
  | module hh hms =>
    exact .map (.ones (k := .decl) hms) (.module { hh with info := hh.info.withId hcomments hid })
  | augmentation hh hms =>
    exact .map (.ones (k := .decl) hms) (.augmentation { hh with info := hh.info.withId hcomments hid })
  | global hh hms =>
    exact .map (.ones (k := .decl) hms) (.global { hh with info := hh.info.withId hcomments hid })
  | cls hc =>
    exact .ap (.ap (.ap (.map (.ones (k := .tparam) hc.tparams) fun hps _ _ hp _ _ his _ _ hms =>
      .cls { hc with info := hc.info.withId hcomments hid, tparams := hps, parent := hp,
                     implements := his, members := hms })
      (.one? (k := .ty) hc.parent)) (.ones (k := .ty) hc.implements)) (.ones (k := .member) hc.members)
  | iface hi =>
    exact .ap (.ap (.map (.ones (k := .tparam) hi.tparams) fun hps _ _ his _ _ hms =>
      .iface { hi with info := hi.info.withId hcomments hid, tparams := hps, inheritance := his,
                       members := hms })
      (.ones (k := .ty) hi.inheritance)) (.ones (k := .member) hi.members)
  | enum he =>
    exact .ap (.map (.each he.members (EnumMember.Twin.form hcomments)) fun hms _ _ ht =>
      .enum { he with info := he.info.withId hcomments hid, members := hms, exportedFrom := ht })
      (.one? (k := .ty) he.exportedFrom)
  | var hv =>
    exact .ap (.map (.one? (k := .ty) hv.tpe) fun ht _ _ he =>
      .var { hv with info := hv.info.withId hcomments hid, tpe := ht, expr := he })
      (.one? (k := .expr) hv.expr)
  | function hf =>
    exact .map (.one (k := .sig) hf.sig) fun hs =>
      .function { hf with info := hf.info.withId hcomments hid, sig := hs }
  | typeAlias ha =>
    exact .ap (.map (.ones (k := .tparam) ha.tparams) fun hps _ _ ht =>
      .typeAlias { ha with info := ha.info.withId hcomments hid, tparams := hps, target := ht })
      (.one (k := .ty) ha.target)
  | @exports x y _ _ hh he =>
    have hh' : ExportHead.Twin K { x with info := { x.info with id := i } }
        { y with info := { y.info with id := j } } :=
      { hh with info := hh.info.withId hcomments hid }
    cases he with
    | inline hd => exact .map (.one (k := .decl) hd) fun hd => .exports hh' (.inline hd)
    | names => exact .pure (.exports hh' .names)
    | star => exact .pure (.exports hh' .star)
  | imports hi => exact .pure (.imports { hi with id := hid })
  | exportAs he => exact .pure (.exportAs { he with id := hid })

theorem Kind.Twin.form_withId {k : Kind} {a b : k.Of} (h : k.Twin L a b)
    (hid : (k.ownId? a).isSome = true → K.id i j) :
    Form.Twin L K (k.Twin K) (k.form (k.withId i a)) (k.form (k.withId j b)) := by
  cases k with
  | file =>
    exact .map (.ones (k := .decl) h.members) fun hms =>
      { h with info := h.info.withId hcomments (hid rfl), members := hms }
  | decl => exact Decl.Twin.form_withId hcomments h (hid rfl)
  | member => exact Member.Twin.form_withId hcomments hhints h (hid rfl)
  | ty => exact Ty.Twin.form_withId hcomments hhints h hid
  | sig =>
    cases h with | mk hi hps hxs hr =>
      exact .ap (.ap (.map (.ones (k := .tparam) hps) fun h _ _ h' _ _ =>
        .mk (hi.withId hcomments (hid rfl)) h h') (.ones (k := .param) hxs)) (.one? (k := .ty) hr)
  | param =>
    cases h with | mk hi ht => exact .map (.one? (k := .ty) ht) (.mk (hi.withId hcomments (hid rfl)))
  | tparam =>
    cases h with | mk hi hb hd =>
      exact .ap (.map (.one? (k := .ty) hb) fun h _ _ => .mk (hi.withId hcomments (hid rfl)) h)
        (.one? (k := .ty) hd)
  | expr => exact Expr.Twin.form h

end

theorem Kind.Twin.ownId? {L : Leeway} {k : Kind} {a b : k.Of} (h : k.Twin L a b) :
    Option.Rel L.id (k.ownId? a) (k.ownId? b) := by
  cases k with
  | file => exact .some h.info.id
  | decl =>
    cases h with
    | space h | module h | augmentation h | global h | cls h | iface h | enum h | var h | function h
    | typeAlias h | exports h => exact .some h.info.id
    | imports h | exportAs h => exact .some h.id
  | member =>
    cases h with
    | call hi | ctor hi | function hi | property hi | dict hi | single hi | mapped hi => exact .some hi.id
  | ty =>
    cases h with
    | ref hi | object hi => exact .some hi.id
    | function | infer | this => exact .none
    | literal hi | constructor hi | tuple hi | query hi | repeated hi | keyOf hi | lookup hi | union hi
    | intersect hi | conditional hi | extending hi | is hi => exact .some hi
  | sig | param | tparam => cases h with | mk hi => exact .some hi.id
  | expr => exact .none

theorem Kind.Twin.form {L : Leeway} {k : Kind} {a b : k.Of} (h : k.Twin L a b) :
    Form.Twin L L (k.Twin L) (k.form a) (k.form b) := by
  have hids := h.ownId?
  generalize ha : k.ownId? a = x at hids
  generalize hb : k.ownId? b = y at hids
  cases hids with
  | none =>
    have hform := h.form_withId (i := 0) (j := 0) (K := L) id id fun hsome => by simp [ha] at hsome
    rwa [Kind.withId_of_none ha, Kind.withId_of_none hb] at hform
  | some hid =>
    have hform := h.form_withId (K := L) id id fun _ => hid
    rwa [Kind.withId_of_some ha, Kind.withId_of_some hb] at hform

/-! ## Numbering -/

section
variable {m n : Type → Type} [Monad m] [Monad n] [LawfulMonad m] [LawfulMonad n] {P : Pairing m n}
  {L K : Leeway} {f : NodeId → m NodeId} {g : NodeId → n NodeId}

/-- The two ways of renumbering go in step on twins, and give twins by a leeway that allows the same
differences in comments. -/
structure Leeway.Renumbers (P : Pairing m n) (L K : Leeway) (f : NodeId → m NodeId)
    (g : NodeId → n NodeId) : Prop where
  ids : ∀ {i j}, L.id i j → P.rel K.id (f i) (g j)
  comments : ∀ {cs ds}, L.comments cs ds → K.comments cs ds
  hints : ∀ {cs ds}, L.hints cs ds → K.hints cs ds

theorem Form.traverse_twin {α β : Type} {R : α → β → Prop} {x : Form α} {y : Form β}
    (hx : Form.Twin L K R x y) (hone : x.All fun k a => ∀ {b}, k.Twin L a b →
      P.rel (k.Twin K) (k.renumber f a) (k.renumber g b)) :
    P.rel R (x.traverse (Kind.renumber f)) (y.traverse (Kind.renumber g)) := by
  induction hx with
  | pure hab => exact P.pure hab
  | one hab => exact hone hab
  | map _ hfg ih => exact P.bind (ih hone) fun _ _ ha => P.pure (hfg ha)
  | ap _ _ ihf ihx =>
    exact P.bind (ihf hone.1) fun _ _ hf => P.bind (ihx hone.2) fun _ _ ha => P.pure (hf _ _ ha)

/-- **Twins that are renumbered in step** are twins by the new identities. -/
theorem Kind.renumber_twin (hfg : L.Renumbers P K f g) {k : Kind} {a b : k.Of} (h : k.Twin L a b) :
    P.rel (k.Twin K) (k.renumber f a) (k.renumber g b) := by
  induction k, a using Kind.induct with
  | step k a ih =>
  have hparts : ∀ {i j}, ((k.ownId? a).isSome = true → K.id i j) →
      P.rel (k.Twin K) ((k.form (k.withId i a)).traverse (Kind.renumber f))
        ((k.form (k.withId j b)).traverse (Kind.renumber g)) := fun hid =>
    Form.traverse_twin (h.form_withId hfg.comments hfg.hints hid) (Kind.all_withId ih _)
  have hids := h.ownId?
  rw [k.renumber_eq, k.renumber_eq, Kind.relabel, Kind.relabel]
  generalize ha : k.ownId? a = x at hids hparts ⊢
  generalize hb : k.ownId? b = y at hids ⊢
  cases hids with
  | none =>
    have hsame := hparts (i := 0) (j := 0) fun h => by cases h
    rw [Kind.withId_of_none ha, Kind.withId_of_none hb] at hsame
    simpa only [pure_bind] using hsame
  | some hid =>
    simp only [bind_assoc, pure_bind]
    exact P.bind (hfg.ids hid) fun _ _ hid => hparts fun _ => hid

theorem File.renumber_twin (hfg : L.Renumbers P K f g) {x y : File} (h : x.Twin L y) :
    P.rel (File.Twin K) (x.renumber f) (y.renumber g) :=
  Kind.renumber_twin hfg (k := .file) h

end

end Ambient
