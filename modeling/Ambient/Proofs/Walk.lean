import Ambient.Proofs.Form

/-!
# What a walk does, from what its hooks do

A walk calls its hooks and does nothing else. So whatever relates the hooks of two walks, and is kept
when computations are put after each other, relates the walks (`walkFile_related`).

* A `Relator` relates computations that go from a state of one kind to a state of another. With two
  monads it says that the one computation does what the other does; with one monad it can say what
  every run of a computation preserves.
* The kind of the state may depend on where the walk is: what a container's parts add to it is settled
  when the container gets its new members (`Hooks.Related.newMembers`).
-/

namespace Ambient

/-! ## Relations between computations -/

section
variable {m₁ m₂ : Type → Type} [Monad m₁] [Monad m₂] {ι C : Type}

/-- A relation between computations that start in states of one kind and end in states of another,
kept when they are put after each other. -/
structure Relator (m₁ m₂ : Type → Type) [Monad m₁] [Monad m₂] (ι : Type) where
  rel : ι → ι → {α : Type} → m₁ α → m₂ α → Prop
  le : ι → ι → Prop
  refl : ∀ i, le i i
  pure : ∀ i {α : Type} (a : α), rel i i (pure a) (pure a)
  bind : ∀ {i j k} {α β : Type} {x : m₁ α} {y : m₂ α} {f : α → m₁ β} {g : α → m₂ β},
    rel i j x y → (∀ a, rel j k (f a) (g a)) → rel i k (x >>= f) (y >>= g)
  conseq : ∀ {i i' j j'} {α : Type} {x : m₁ α} {y : m₂ α}, le i' i → le j j' → rel i j x y →
    rel i' j' x y

theorem Relator.thenStep (R : Relator m₁ m₂ ι) {i j : ι} {α : Type} {f : α → m₁ (Option α)}
    {g : α → m₂ (Option α)} (h : ∀ a, R.rel i j (f a) (g a)) (e : Edited α) :
    R.rel i j (e.thenStep f) (e.thenStep g) :=
  R.bind (h e.value) fun _ => R.pure j _

/-- The hooks of two walks are related wherever the walks come: `visits c n` says that the node `n` is
walked in the context `c`. Its hooks see the context inside it. There the state is of the same kind
as outside, except in a container, whose state is brought back by the hook for its new members. -/
structure Hooks.Related (R : Relator m₁ m₂ ι) (h₁ : Hooks m₁ C) (h₂ : Hooks m₂ C) (kind : C → ι)
    (visits : C → Node → Prop) : Prop where
  within : h₁.within = h₂.within
  child : ∀ {c n n'}, visits c n → n' ∈ n.children → visits (h₁.within c n) n'
  down : ∀ {c n}, visits c n → R.le (kind c) (kind (h₁.within c n))
  up : ∀ {c n}, visits c n → n.isContainer = false → R.le (kind (h₁.within c n)) (kind c)
  enterFile : ∀ {c f c'}, visits c (.file f) → h₁.within c (.file f) = c' →
    R.rel (kind c') (kind c') (h₁.enterFile c' f) (h₂.enterFile c' f)
  enterDecl : ∀ {c d c'}, visits c (.decl d) → h₁.within c (.decl d) = c' →
    R.rel (kind c') (kind c') (h₁.enterDecl c' d) (h₂.enterDecl c' d)
  enterMember : ∀ {c x c'}, visits c (.member x) → h₁.within c (.member x) = c' →
    R.rel (kind c') (kind c') (h₁.enterMember c' x) (h₂.enterMember c' x)
  enterTy : ∀ {c t c'}, visits c (.ty t) → h₁.within c (.ty t) = c' →
    R.rel (kind c') (kind c') (h₁.enterTy c' t) (h₂.enterTy c' t)
  enterSig : ∀ {c s c'}, visits c (.sig s) → h₁.within c (.sig s) = c' →
    R.rel (kind c') (kind c') (h₁.enterSig c' s) (h₂.enterSig c' s)
  enterParam : ∀ {c p c'}, visits c (.param p) → h₁.within c (.param p) = c' →
    R.rel (kind c') (kind c') (h₁.enterParam c' p) (h₂.enterParam c' p)
  enterTypeParam : ∀ {c p c'}, visits c (.tparam p) → h₁.within c (.tparam p) = c' →
    R.rel (kind c') (kind c') (h₁.enterTypeParam c' p) (h₂.enterTypeParam c' p)
  enterExpr : ∀ {c n c'} e, visits c n → h₁.within c n = c' →
    R.rel (kind c') (kind c') (h₁.enterExpr c' e) (h₂.enterExpr c' e)
  newMembers : ∀ {c n c'} owner ds, visits c n → n.isContainer = true → h₁.within c n = c' →
    R.rel (kind c') (kind c) (h₁.newMembers c' owner ds) (h₂.newMembers c' owner ds)
  newClassMembers : ∀ {c n c'} owner ms, visits c n → h₁.within c n = c' →
    R.rel (kind c') (kind c') (h₁.newClassMembers c' owner ms) (h₂.newClassMembers c' owner ms)
  leaveFile : ∀ {c f c'} g, visits c (.file f) → h₁.within c (.file f) = c' →
    R.rel (kind c) (kind c) (h₁.leaveFile c' g) (h₂.leaveFile c' g)
  leaveDecl : ∀ {c d c'} d', visits c (.decl d) → h₁.within c (.decl d) = c' →
    R.rel (kind c) (kind c) (h₁.leaveDecl c' d') (h₂.leaveDecl c' d')
  leaveMember : ∀ {c x c'} x', visits c (.member x) → h₁.within c (.member x) = c' →
    R.rel (kind c') (kind c') (h₁.leaveMember c' x') (h₂.leaveMember c' x')
  leaveTy : ∀ {c t c'} t', visits c (.ty t) → h₁.within c (.ty t) = c' →
    R.rel (kind c') (kind c') (h₁.leaveTy c' t') (h₂.leaveTy c' t')
  leaveSig : ∀ {c s c'} s', visits c (.sig s) → h₁.within c (.sig s) = c' →
    R.rel (kind c') (kind c') (h₁.leaveSig c' s') (h₂.leaveSig c' s')
  leaveParam : ∀ {c p c'} p', visits c (.param p) → h₁.within c (.param p) = c' →
    R.rel (kind c') (kind c') (h₁.leaveParam c' p') (h₂.leaveParam c' p')
  leaveTypeParam : ∀ {c p c'} p', visits c (.tparam p) → h₁.within c (.tparam p) = c' →
    R.rel (kind c') (kind c') (h₁.leaveTypeParam c' p') (h₂.leaveTypeParam c' p')
  leaveExpr : ∀ {c n c'} e, visits c n → h₁.within c n = c' →
    R.rel (kind c') (kind c') (h₁.leaveExpr c' e) (h₂.leaveExpr c' e)

end

/-! ## Walks -/

section
variable {m₁ m₂ : Type → Type} {ι C : Type} {h₁ : Hooks m₁ C} {h₂ : Hooks m₂ C} {kind : C → ι}
  {visits : C → Node → Prop} {α : Type}

/-- The context inside a visited node. -/
def Hooks.Inside (h : Hooks m₁ C) (visits : C → Node → Prop) (c : C) : Prop :=
  ∃ c₀ n, visits c₀ n ∧ h.within c₀ n = c

/-- The walk comes by the thing in the context. -/
structure Hooks.Visits (h : Hooks m₁ C) (visits : C → Node → Prop) (c : C) (k : Kind) (a : k.Of) : Prop where
  nodes : ∀ n ∈ k.nodes a, visits c n
  inside : k = .expr → h.Inside visits c

variable [Monad m₁] [Monad m₂] {R : Relator m₁ m₂ ι}

theorem Form.walk_related {i : ι} {c : C} {x : Form α}
    (hx : x.All fun k a => R.rel i i (k.walk h₁ c a) (k.walk h₂ c a)) :
    R.rel i i (x.walk h₁ c) (x.walk h₂ c) := by
  induction x with
  | pure a => exact R.pure _ _
  | one k a => exact hx
  | map f x ih => exact R.bind (ih hx) fun _ => R.pure _ _
  | ap f x ihf ihx => exact R.bind (ihf hx.1) fun _ => R.bind (ihx hx.2) fun _ => R.pure _ _

variable (hh : Hooks.Related R h₁ h₂ kind visits) {c : C}
include hh

theorem Hooks.Related.renewTy {t : Ty} (hv : visits c (.ty t)) (owner : Node) (e : Edited Ty) :
    R.rel (kind (h₁.within c (.ty t))) (kind (h₁.within c (.ty t)))
      (h₁.renewTy (h₁.within c (.ty t)) owner e) (h₂.renewTy (h₁.within c (.ty t)) owner e) := by
  unfold Hooks.renewTy
  split
  · exact R.bind (hh.newClassMembers owner _ hv rfl) fun _ => R.pure _ _
  · exact R.pure _ _

theorem Hooks.Related.renewDecl {d : Decl} (hv : visits c (.decl d)) (owner : Node) (e : Edited Decl) :
    R.rel (kind (h₁.within c (.decl d))) (kind c) (h₁.renewDecl (h₁.within c (.decl d)) owner d e)
      (h₂.renewDecl (h₁.within c (.decl d)) owner d e) := by
  unfold Hooks.renewDecl
  split
  · rename_i hds
    have hcont : (Node.decl d).isContainer = true := by simp [Node.isContainer, Node.members?, hds]
    exact R.bind (hh.newMembers owner _ hv hcont rfl) fun _ => R.pure _ _
  · rename_i hds
    have hcont : (Node.decl d).isContainer = false := by simp [Node.isContainer, Node.members?, hds]
    refine R.conseq (R.refl _) (hh.up hv hcont) ?_
    split
    · exact R.bind (hh.newClassMembers owner _ hv rfl) fun _ => R.pure _ _
    · exact R.pure _ _

variable [LawfulMonad m₁] [LawfulMonad m₂]

/-- **Walks whose hooks are related are related.** -/
theorem Kind.walk_related {k : Kind} {a : k.Of} (hv : h₁.Visits visits c k a) :
    R.rel (kind c) (kind c) (k.walk h₁ c a) (k.walk h₂ c a) := by
  induction k, a using Kind.induct generalizing c with
  | step k a ih =>
  have hform : ∀ {c'}, (∀ n ∈ k.inner a, visits c' n) → h₁.Inside visits c' →
      R.rel (kind c') (kind c') ((k.form a).walk h₁ c') ((k.form a).walk h₂ c') := fun hin hc =>
    Form.walk_related ((ih.and (Form.all_nodes.2 (k.nodes_form a ▸ hin))).mono fun _ _ h => h.1 ⟨h.2, fun _ => hc⟩)
  have hparts : ∀ {n}, visits c n → k.inner a = n.children → R.rel (kind (h₁.within c n))
      (kind (h₁.within c n)) ((k.form a).walk h₁ (h₁.within c n)) ((k.form a).walk h₂ (h₁.within c n)) :=
    fun hn hinner => hform (fun _ hm => hh.child hn (hinner ▸ hm)) ⟨c, _, hn, rfl⟩
  cases k with
  | file =>
    have hn : visits c (.file a) := hv.nodes _ (.head _)
    simp only [walk, walkFile_eq, ← hh.within]
    refine R.conseq (hh.down hn) (R.refl _) (R.bind (hh.enterFile hn rfl) fun place => ?_)
    refine R.bind (hparts hn rfl) fun e => ?_
    exact R.bind (hh.newMembers _ _ hn rfl rfl) fun _ => R.thenStep (fun g => hh.leaveFile g hn rfl) _
  | decl =>
    have hn : visits c (.decl a) := hv.nodes _ (.head _)
    simp only [walk, walkDecl_eq, ← hh.within]
    refine R.conseq (hh.down hn) (R.refl _) (R.bind (hh.enterDecl hn rfl) fun place => ?_)
    refine R.bind (hparts hn rfl) fun e => ?_
    exact R.bind (hh.renewDecl hn _ e) fun _ => R.thenStep (fun d => hh.leaveDecl d hn rfl) _
  | member =>
    have hn : visits c (.member a) := hv.nodes _ (.head _)
    simp only [walk, walkMember_eq, ← hh.within]
    refine R.conseq (hh.down hn) (hh.up hn rfl) (R.bind (hh.enterMember hn rfl) fun _ => ?_)
    exact R.bind (hparts hn rfl) (R.thenStep fun x => hh.leaveMember x hn rfl)
  | ty =>
    have hn : visits c (.ty a) := hv.nodes _ (.head _)
    simp only [walk, walkTy_eq, ← hh.within]
    refine R.conseq (hh.down hn) (hh.up hn rfl) (R.bind (hh.enterTy hn rfl) fun _ => ?_)
    refine R.bind (hparts hn rfl) fun e => ?_
    exact R.bind (hh.renewTy hn _ e) fun _ => R.thenStep (fun t => hh.leaveTy t hn rfl) _
  | sig =>
    have hn : visits c (.sig a) := hv.nodes _ (.head _)
    simp only [walk, walkSig_eq, ← hh.within]
    refine R.conseq (hh.down hn) (hh.up hn rfl) (R.bind (hh.enterSig hn rfl) fun _ => ?_)
    exact R.bind (hparts hn rfl) (R.thenStep fun s => hh.leaveSig s hn rfl)
  | param =>
    have hn : visits c (.param a) := hv.nodes _ (.head _)
    simp only [walk, walkParam_eq, ← hh.within]
    refine R.conseq (hh.down hn) (hh.up hn rfl) (R.bind (hh.enterParam hn rfl) fun _ => ?_)
    exact R.bind (hparts hn rfl) fun _ => R.thenStep (fun p => hh.leaveParam p hn rfl) _
  | tparam =>
    have hn : visits c (.tparam a) := hv.nodes _ (.head _)
    simp only [walk, walkTypeParam_eq, ← hh.within]
    refine R.conseq (hh.down hn) (hh.up hn rfl) (R.bind (hh.enterTypeParam hn rfl) fun _ => ?_)
    exact R.bind (hparts hn rfl) (R.thenStep fun p => hh.leaveTypeParam p hn rfl)
  | expr =>
    obtain ⟨c₀, n, hn, hc⟩ := hv.inside rfl
    simp only [walk, walkExpr_eq]
    refine R.bind (hh.enterExpr a hn hc) fun _ => ?_
    exact R.bind (hform hv.nodes ⟨c₀, n, hn, hc⟩) (R.thenStep fun e => hh.leaveExpr e hn hc)

theorem walkFile_related {f : File} (hv : visits c (.file f)) :
    R.rel (kind c) (kind c) (walkFile h₁ c f) (walkFile h₂ c f) :=
  Kind.walk_related hh (k := .file) ⟨List.forall_mem_singleton.2 hv, fun hk => by cases hk⟩

theorem walkDecl_related {d : Decl} (hv : visits c (.decl d)) :
    R.rel (kind c) (kind c) (walkDecl h₁ c d) (walkDecl h₂ c d) :=
  Kind.walk_related hh (k := .decl) ⟨List.forall_mem_singleton.2 hv, fun hk => by cases hk⟩

end

end Ambient
