import Ambient.Proofs.BottomUp
import Ambient.Proofs.Simplest

/-!
# Nodes that are kept

A walk gives back the very node that it was given if no hook replaced anything inside. To say so of all
hooks, whatever they compute with, the hooks are watched: a flag beside their own state is raised by every
replacement (`Hooks.watched`). Watching changes nothing (`Hooks.watched_related`), and as long as the flag is
not raised, the hooks do what idle ones do (`Hooks.watched_idle`), which keep every node.

* `Always P x`: every result of the computation is as `P` says.
* `Quiet P x`: if the flag is down when the computation is done, it was down before and the result is as
  `P` says.
-/

namespace Ambient

/-! ## Results of computations -/

section
variable {m : Type → Type} [Monad m] [LawfulMonad m] {α β : Type}

/-- Every result of the computation is as `P` says. -/
def Always (P : α → Prop) (x : m α) : Prop :=
  ∃ y : m { a // P a }, Subtype.val <$> y = x

variable {P P' : α → Prop} {Q : β → Prop} {x : m α}

theorem Always.pure {a : α} (h : P a) : Always P (pure a : m α) :=
  ⟨Pure.pure ⟨a, h⟩, map_pure _ _⟩

theorem Always.bind {f : α → m β} (hx : Always P x) (hf : ∀ a, P a → Always Q (f a)) :
    Always Q (x >>= f) := by
  obtain ⟨y, rfl⟩ := hx
  choose g hg using hf
  refine ⟨y >>= fun a => g a.1 a.2, ?_⟩
  rw [map_bind, bind_map_left]
  simp only [hg]

theorem Always.imp (hx : Always P x) (h : ∀ a, P a → P' a) : Always P' x := by
  have hbind := hx.bind fun a ha => Always.pure (m := m) (h a ha)
  rwa [bind_pure] at hbind

theorem Always.of_forall (h : ∀ a, P a) : Always P x :=
  ⟨(fun a => ⟨a, h a⟩) <$> x, by simp⟩

end

/-! ## Watching -/

section
variable {m : Type → Type} [Monad m] {α C : Type}

/-- Raises the flag if the answer is a replacement. -/
def noting (x : m (Option α)) : StateT Bool m (Option α) := do
  let r ← StateT.lift x
  if r.isSome then set true
  return r

/-- The hooks, with a flag that is raised by every replacement. -/
def Hooks.watched (h : Hooks m C) : Hooks (StateT Bool m) C where
  within := h.within
  enterFile c f := noting (h.enterFile c f)
  enterDecl c d := noting (h.enterDecl c d)
  enterMember c x := StateT.lift (h.enterMember c x)
  enterTy c t := noting (h.enterTy c t)
  enterSig c s := StateT.lift (h.enterSig c s)
  enterParam c p := noting (h.enterParam c p)
  enterTypeParam c p := StateT.lift (h.enterTypeParam c p)
  enterExpr c e := StateT.lift (h.enterExpr c e)
  newMembers c owner ds := noting (h.newMembers c owner ds)
  newClassMembers c owner ms := noting (h.newClassMembers c owner ms)
  leaveFile c f := noting (h.leaveFile c f)
  leaveDecl c d := noting (h.leaveDecl c d)
  leaveMember c x := noting (h.leaveMember c x)
  leaveTy c t := noting (h.leaveTy c t)
  leaveSig c s := noting (h.leaveSig c s)
  leaveParam c p := noting (h.leaveParam c p)
  leaveTypeParam c p := noting (h.leaveTypeParam c p)
  leaveExpr c e := noting (h.leaveExpr c e)

/-- Walks a node of any kind. -/
def walkNode (h : Hooks m C) (c : C) : Node → m (Edited Node)
  | .file f => (Node.file <$> ·) <$> walkFile h c f
  | .decl d => (Node.decl <$> ·) <$> walkDecl h c d
  | .member x => (Node.member <$> ·) <$> walkMember h c x
  | .ty t => (Node.ty <$> ·) <$> walkTy h c t
  | .sig s => (Node.sig <$> ·) <$> walkSig h c s
  | .param p => (Node.param <$> ·) <$> walkParam h c p
  | .tparam p => (Node.tparam <$> ·) <$> walkTypeParam h c p

end

section
variable {m : Type → Type} [Monad m] [LawfulMonad m] {α β C : Type}

theorem noting_run (x : m (Option α)) (b : Bool) :
    (noting x).run b = (fun r => (r, r.isSome || b)) <$> x := by
  simp only [noting, StateT.run_bind, StateT.run_lift, bind_pure_comp, bind_map_left]
  rw [map_eq_pure_bind]
  congr 1
  funext r
  cases r <;> simp

/-! ## Watching changes nothing -/

/-- The first computation does what the second does, apart from the flag. -/
def forgetting (m : Type → Type) [Monad m] [LawfulMonad m] : Relator (StateT Bool m) m Unit where
  rel := fun _ _ {_} x y => ∀ b, Prod.fst <$> x.run b = y
  le _ _ := True
  refl _ := trivial
  pure _ _ a b := by simp
  bind {_ _ _ _ _ x y f g} hx hf b := by
    rw [StateT.run_bind, map_bind, ← hx b, bind_map_left]
    exact congrArg _ (funext fun r => hf r.1 r.2)
  conseq _ _ h := h

theorem noting_forgets (x : m (Option α)) : (forgetting m).rel () () (noting x) x := by
  intro b
  simp [noting_run]

theorem lift_forgets (x : m α) : (forgetting m).rel () () (StateT.lift x : StateT Bool m α) x := by
  intro b
  simp

theorem Hooks.watched_related (h : Hooks m C) :
    Hooks.Related (forgetting m) h.watched h (fun _ => ()) fun _ _ => True where
  within := rfl
  child _ _ := trivial
  down _ := trivial
  up _ _ := trivial
  enterFile _ _ := noting_forgets _
  enterDecl _ _ := noting_forgets _
  enterMember _ _ := lift_forgets _
  enterTy _ _ := noting_forgets _
  enterSig _ _ := lift_forgets _
  enterParam _ _ := noting_forgets _
  enterTypeParam _ _ := lift_forgets _
  enterExpr _ _ _ := lift_forgets _
  newMembers _ _ _ _ _ := noting_forgets _
  newClassMembers _ _ _ _ := noting_forgets _
  leaveFile _ _ _ := noting_forgets _
  leaveDecl _ _ _ := noting_forgets _
  leaveMember _ _ _ := noting_forgets _
  leaveTy _ _ _ := noting_forgets _
  leaveSig _ _ _ := noting_forgets _
  leaveParam _ _ _ := noting_forgets _
  leaveTypeParam _ _ _ := noting_forgets _
  leaveExpr _ _ _ := noting_forgets _

theorem Relator.map {m₂ : Type → Type} [Monad m₂] [LawfulMonad m₂] {R : Relator m m₂ Unit} {x : m α}
    {y : m₂ α} (f : α → β) (h : R.rel () () x y) : R.rel () () (f <$> x) (f <$> y) := by
  rw [map_eq_pure_bind, map_eq_pure_bind]
  exact R.bind h fun _ => R.pure _ _

theorem walkNode_related {m₂ : Type → Type} [Monad m₂] [LawfulMonad m₂] {R : Relator m m₂ Unit}
    {h₁ : Hooks m C} {h₂ : Hooks m₂ C} (hh : Hooks.Related R h₁ h₂ (fun _ => ()) fun _ _ => True)
    (c : C) (n : Node) : R.rel () () (walkNode h₁ c n) (walkNode h₂ c n) := by
  have hwalk : ∀ {k : Kind} {a : k.Of}, k ≠ .expr → R.rel () () (k.walk h₁ c a) (k.walk h₂ c a) :=
    fun hk => Kind.walk_related hh ⟨fun _ _ => trivial, fun he => absurd he hk⟩
  cases n with
  | file f => exact Relator.map _ (hwalk (k := .file) (by decide))
  | decl d => exact Relator.map _ (hwalk (k := .decl) (by decide))
  | member x => exact Relator.map _ (hwalk (k := .member) (by decide))
  | ty t => exact Relator.map _ (hwalk (k := .ty) (by decide))
  | sig s => exact Relator.map _ (hwalk (k := .sig) (by decide))
  | param p => exact Relator.map _ (hwalk (k := .param) (by decide))
  | tparam p => exact Relator.map _ (hwalk (k := .tparam) (by decide))

/-! ## Nothing was replaced -/

/-- If the flag is down when the computation is done, it was down before and the result is as `P`
says. -/
def Quiet (P : α → Prop) (x : StateT Bool m α) : Prop :=
  ∀ b, Always (fun r => r.2 = false → b = false ∧ P r.1) (x.run b)

namespace Quiet

variable {P P' : α → Prop} {Q : β → Prop} {x : StateT Bool m α}

theorem pure {a : α} (h : P a) : Quiet P (Pure.pure a : StateT Bool m α) :=
  fun _ => .pure fun hb => ⟨hb, h⟩

theorem imp (hx : Quiet P x) (h : ∀ a, P a → P' a) : Quiet P' x :=
  fun b => (hx b).imp fun _ hr hb => ⟨(hr hb).1, h _ (hr hb).2⟩

theorem bind {f : α → StateT Bool m β} (hx : Quiet P x)
    (hf : ∀ a, Quiet (fun r => P a → Q r) (f a)) :
    Quiet Q (x >>= f) := by
  intro b
  rw [StateT.run_bind]
  refine (hx b).bind fun r hr => (hf r.1 r.2).imp fun s hs hb => ?_
  obtain ⟨hr₂, hQ⟩ := hs hb
  obtain ⟨hb, hP⟩ := hr hr₂
  exact ⟨hb, hQ hP⟩

theorem noting (x : m (Option α)) : Quiet (fun r => r = none) (noting x) := by
  intro b
  rw [noting_run, map_eq_pure_bind]
  refine (Always.of_forall (P := fun _ => True) fun _ => trivial).bind fun r _ => .pure fun hb => ?_
  cases r with
  | none => exact ⟨hb, rfl⟩
  | some a => cases hb

theorem lift (x : m Unit) : Quiet (fun a => a = ()) (StateT.lift x) := by
  intro b
  rw [StateT.run_lift]
  exact (Always.of_forall (P := fun _ => True) fun _ => trivial).bind fun _ _ =>
    .pure fun hb => ⟨hb, rfl⟩

end Quiet

/-- If the first computation raises no flag, it gives what the second gives. -/
def quietly (m : Type → Type) [Monad m] [LawfulMonad m] : Relator (StateT Bool m) Id Unit where
  rel := fun _ _ {_} x y => Quiet (fun a => a = Id.run y) x
  le _ _ := True
  refl _ := trivial
  pure _ _ _ := .pure rfl
  bind hx hf := hx.bind fun a => (hf a).imp fun _ hr ha => by subst ha; exact hr
  conseq _ _ h := h

/-- As long as they replace nothing, the hooks do what idle ones do. -/
theorem Hooks.watched_idle (h : Hooks m C) :
    Hooks.Related (quietly m) h.watched (Hooks.idle h.within) (fun _ => ()) fun _ _ => True where
  within := rfl
  child _ _ := trivial
  down _ := trivial
  up _ _ := trivial
  enterFile _ _ := .noting _
  enterDecl _ _ := .noting _
  enterMember _ _ := .lift _
  enterTy _ _ := .noting _
  enterSig _ _ := .lift _
  enterParam _ _ := .noting _
  enterTypeParam _ _ := .lift _
  enterExpr _ _ _ := .lift _
  newMembers _ _ _ _ _ := .noting _
  newClassMembers _ _ _ _ := .noting _
  leaveFile _ _ _ := .noting _
  leaveDecl _ _ _ := .noting _
  leaveMember _ _ _ := .noting _
  leaveTy _ _ _ := .noting _
  leaveSig _ _ _ := .noting _
  leaveParam _ _ _ := .noting _
  leaveTypeParam _ _ _ := .noting _
  leaveExpr _ _ _ := .noting _

end

section
variable {C : Type} (within : C → Node → C)

theorem Hooks.idle_keeps : (Hooks.idle within).Rests computing fun _ _ => True :=
  Hooks.idle_rests _ _ fun _ _ => trivial

theorem walkNode_idle (c : C) (n : Node) : Id.run (walkNode (Hooks.idle within) c n) = .keep n := by
  have hkeep : ∀ {k : Kind} {a : k.Of} {f : k.Of → Node}, (∀ b, k.nodes b = [f b]) →
      Id.run ((f <$> ·) <$> k.walk (Hooks.idle within) c a) = .keep (f a) := by
    intro k a f hf
    have hwalk := Kind.walk_builds_node (Hooks.idle_keeps within).builds (c := c) (hf a) trivial () (hf _)
    exact congrArg₂ Edited.mk hwalk.1 hwalk.2
  cases n with
  | file f => exact hkeep (k := .file) fun _ => rfl
  | decl d => exact hkeep (k := .decl) fun _ => rfl
  | member x => exact hkeep (k := .member) fun _ => rfl
  | ty t => exact hkeep (k := .ty) fun _ => rfl
  | sig s => exact hkeep (k := .sig) fun _ => rfl
  | param p => exact hkeep (k := .param) fun _ => rfl
  | tparam p => exact hkeep (k := .tparam) fun _ => rfl

theorem walkExpr_idle (c : C) (e : Expr) : Id.run (walkExpr (Hooks.idle within) c e) = .keep e := by
  have hwalk := Kind.walk_builds (Hooks.idle_keeps within).builds (c := c) (k := .expr) (a := e)
    (fun _ _ => trivial) ()
  obtain ⟨hnodes, hchg⟩ := hwalk.walked.eq
  exact congrArg₂ Edited.mk ((Expr.nodes_inj hwalk.like).1 hnodes) hchg

end

section
variable {m : Type → Type} [Monad m] [LawfulMonad m] {C : Type} (h : Hooks m C)

/-- **A node is kept if nothing inside was replaced.** -/
theorem walkNode_quiet (c : C) (n : Node) : Quiet (fun e => e = .keep n) (walkNode h.watched c n) := by
  rw [← walkNode_idle h.within c n]
  exact walkNode_related h.watched_idle c n

theorem walkExpr_quiet (c : C) (n : Node) (e : Expr) :
    Quiet (fun r => r = .keep e) (walkExpr h.watched (h.within c n) e) := by
  rw [← walkExpr_idle h.within (h.within c n) e]
  exact Kind.walk_related h.watched_idle (k := .expr)
    ⟨fun _ _ => trivial, fun _ => ⟨c, n, trivial, rfl⟩⟩

end

/-- **Sharing is only sharing.** A walk that rewrites types by what they say gives a file with the contents
that the plain rewriting gives. And whatever the hooks do, a node that was walked without a replacement is
kept: watching the hooks changes nothing, and if the flag stayed down, the very node came back. -/
theorem walk_shares {C : Type} :
    (∀ (w : C → Node → C) (g : Ty → Option Ty), Structural (fun t => (g t).getD t) →
      ∀ (c : C) (x : File), (Id.run (walkFile (typeHooks w g) c x)).value.contents =
        (x.bottomUp fun t => (g t).getD t).contents) ∧
    (∀ (m : Type → Type) [Monad m] [LawfulMonad m] (h : Hooks m C) (c : C) (n : Node),
      (Prod.fst <$> (walkNode h.watched c n).run false = walkNode h c n ∧
        Always (fun r => r.2 = false → r.1 = .keep n) ((walkNode h.watched c n).run false)) ∧
      ∀ e : Expr,
        Prod.fst <$> (walkExpr h.watched (h.within c n) e).run false = walkExpr h (h.within c n) e ∧
          Always (fun r => r.2 = false → r.1 = .keep e)
            ((walkExpr h.watched (h.within c n) e).run false)) := by
  refine ⟨fun w g _ c x => congrArg File.contents (Kind.walk_bottomUp .file x),
    fun m _ _ h c n => ⟨⟨?_, ?_⟩, fun e => ⟨?_, ?_⟩⟩⟩
  · exact walkNode_related h.watched_related c n false
  · exact (walkNode_quiet h c n false).imp fun r hr hb => (hr hb).2
  · exact Kind.walk_related h.watched_related (k := .expr)
      ⟨fun _ _ => trivial, fun _ => ⟨c, n, trivial, rfl⟩⟩ false
  · exact (walkExpr_quiet h c n e false).imp fun r hr hb => (hr hb).2

/-- Rewritten to lists, the types of an alias are rewritten from the inside out; and the alias is kept by
hooks that only replace object types. -/
theorem walk_shares_in_alias :
    let f := boundedAlias .string (.keyOf 0 (.reference ["T"] []))
    let lists : Ty → Option Ty := fun t => some (.repeated 0 t)
    let closed : Ty → Option Ty := fun t => if t.isPlainObject then some .this else none
    (Id.run (walkFile (typeHooks (fun _ _ => ()) lists) () f)).value.contents =
        (boundedAlias (.repeated 0 .string)
          (.repeated 0 (.keyOf 0 (.repeated 0 (.reference ["T"] []))))).contents ∧
      Id.run (walkNode (typeHooks (fun _ _ => ()) closed) () (.file f)) = .keep (.file f) := by
  intro f lists closed
  obtain ⟨hplain, hshared⟩ := walk_shares (C := Unit)
  have hlists : Structural fun t => (lists t).getD t := fun t u htu => congrArg (Ty.repeated 0) htu
  refine ⟨hplain (fun _ _ => ()) lists hlists () f, ?_⟩
  obtain ⟨⟨hrun, ⟨r, hr⟩, hy⟩, -⟩ := hshared Id (typeHooks (fun _ _ => ()) closed) () (.file f)
  have hflag : r.2 = false := by
    rw [show r = _ from hy]
    rfl
  rw [← hrun, ← hy]
  exact hr hflag

end Ambient
