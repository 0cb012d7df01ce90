import Ambient.Proofs.FreshNames
import Ambient.Proofs.Normal
import Ambient.Proofs.Variables

/-!
# How a run can fail

Every question that a step asks is answered, and a new name is found wherever one is needed, so a step
fails only if an edit is refused. Two steps make edits that can be. Members of an exported variable are
declared next to it, which is refused where no place is known. The class for a variable gets another
name where a type has that of the variable, which is refused if the variable is a call target. Since
places are given first, only the second refusal is left.

* `attempting`: computations that end, or fail in a way that is foreseen.
* `builds_of_ends`: walks end if their hooks do.
* `Pass.runAnew_error`: what a step can fail with.
* `compile_fails_only_on_call_targets`: what a run can fail with.
-/

namespace Ambient

/-! ## Computations that end or fail -/

/-- Computations that ask questions of the realm and come to an end, or fail with one of these
failures. -/
def attempting (D : Realm) (foreseen : Failure → Prop) : Logic Resolve where
  World := Unit
  le _ _ := True
  refl _ := trivial
  trans _ _ := trivial
  ends _ x P := ∀ σ, σ.Faithful D → (∃ a σ', x.run σ = .ok (a, σ') ∧ σ'.Faithful D ∧ P a ()) ∨
    ∃ e, x.run σ = .error e ∧ foreseen e
  pure h σ hσ := .inl ⟨_, σ, rfl, hσ, h⟩
  bind hx hf σ hσ := by
    rw [StateT.run_bind]
    rcases hx σ hσ with ⟨a, σ₁, ha, hσ₁, hP⟩ | ⟨e, he, hfor⟩
    · rw [ha]
      exact hf a () trivial hP σ₁ hσ₁
    · rw [he]
      exact .inr ⟨e, rfl, hfor⟩

/-- Computations that ask questions of the realm and come to an end, whatever interfaces wait. -/
def awaiting (D : Realm) : Logic Extract where
  World := Unit
  le _ _ := True
  refl _ := trivial
  trans _ _ := trivial
  ends _ x P := ∀ pending, (asking D).ends () (x.run pending) fun r _ => P r.1 ()
  pure h _ := (asking D).pure h
  bind hx hf pending := by
    rw [StateT.run_bind]
    exact (asking D).bind (hx pending) fun r _ _ hr => hf r.1 () trivial hr r.2

section
variable {D : Realm} {foreseen : Failure → Prop} {w : Unit} {α : Type} {x : Resolve α}
  {P : α → Unit → Prop}

theorem attempting_of_asking (h : (asking D).ends w x P) : (attempting D foreseen).ends w x P :=
  fun σ hσ => .inl (h σ hσ)

theorem attempting_throw {e : Failure} (he : foreseen e) :
    (attempting D foreseen).ends w (throw e : Resolve α) P :=
  fun _ _ => .inr ⟨e, rfl, he⟩

theorem attempting_of_succeeding (h : (attempting D foreseen).Ends x) (hx : succeeding.ends () x P) :
    (attempting D foreseen).ends w x P := by
  intro σ hσ
  rcases h w σ hσ with ⟨a, σ', ha, hσ', -⟩ | herror
  · exact .inl ⟨a, σ', ha, hσ', hx σ _ ha⟩
  · exact .inr herror

theorem afresh_attempting (h : (attempting D foreseen).Ends x) :
    (attempting D foreseen).Ends (Resolve.afresh x) := by
  intro w σ hσ
  rw [afresh_run]
  rcases h w { σ with cuts := 0 } (hσ.recount 0) with ⟨a, σ', ha, hσ', hP⟩ | ⟨e, he, hfor⟩
  · rw [ha]
    exact .inl ⟨a, _, rfl, hσ'.recount _, hP⟩
  · rw [he]
    exact .inr ⟨e, rfl, hfor⟩

end

/-! ## Walks that end -/

/-- A walk ends if its hooks do, wherever it comes to. All hooks but these are idle in the steps that ask
questions. -/
theorem builds_of_ends {m : Type → Type} [Monad m] [LawfulMonad m] {C : Type} (L : Logic m)
    {within : C → Node → C} {newMembers : C → Node → List Decl → m (Option (List Decl))}
    {leaveDecl : C → Decl → m (Option Decl)} {leaveTy : C → Ty → m (Option Ty)}
    {visits : C → Node → Prop}
    (hchild : ∀ {c n n'}, visits c n → n' ∈ n.children → visits (within c n) n')
    (hmems : ∀ {c n} owner ds, visits c n → L.Ends (newMembers (within c n) owner ds))
    (hdecl : ∀ {c d} d', visits c (.decl d) → L.Ends (leaveDecl (within c (.decl d)) d'))
    (hty : ∀ {c t} t', visits c (.ty t) → L.Ends (leaveTy (within c (.ty t)) t')) :
    Hooks.Builds L { Hooks.idle within with
      newMembers := newMembers, leaveDecl := leaveDecl, leaveTy := leaveTy } visits
      (fun _ _ _ => True) (fun _ _ _ _ _ _ => True) (fun _ _ _ _ _ _ => True) where
  idle := {}
  child := hchild
  mono _ _ _ := trivial
  plain _ _ _ _ := trivial
  enterFile _ := L.pure trivial
  enterDecl _ := L.pure trivial
  newMembers owner hv _ _ := L.imp (hmems owner _ hv _) fun _ _ _ _ _ => trivial
  newClassMembers _ _ _ _ := L.pure fun _ => trivial
  leaveFile _ _ _ := trivial
  leaveDecl hv _ _ := hdecl _ hv _
  leaveTy hv _ := hty _ hv _
  keep _ _ _ := trivial

/-! ## Steps that never fail -/

section
variable {root : Root} {f : File}

theorem walkFile_ends {m : Type → Type} [Monad m] [LawfulMonad m] {L : Logic m}
    {newMembers : Scope → Node → List Decl → m (Option (List Decl))}
    {leaveDecl : Scope → Decl → m (Option Decl)} {leaveTy : Scope → Ty → m (Option Ty)}
    (hmems : ∀ {s} owner ds, root.Inside f s → L.Ends (newMembers s owner ds))
    (hdecl : ∀ {s} d, root.Inside f s → L.Ends (leaveDecl s d))
    (hty : ∀ {s} t, root.Inside f s → L.Ends (leaveTy s t)) :
    L.Ends (walkFile { Hooks.idle Scope.enter with
      newMembers := newMembers, leaveDecl := leaveDecl, leaveTy := leaveTy } (.ofRoot root) f) :=
  fun w => walkFile_builds (builds_of_ends L Root.Inside.within hmems hdecl hty) f .file w

section
variable {s : Scope} (hs : root.Enters f s)
include hs

theorem accessedType?_ends (t : Ty) : (root.asks f).Ends (accessedType? s t) := by
  unfold accessedType?
  split
  · exact .pure
  · exact .bind (afresh_ends (hs.members_answered _)) fun _ => .pure
  · exact .pure

theorem MappedMember.propertiesFor_ends (m : MappedMember) (keys : List Ident) :
    (root.asks f).Ends (m.propertiesFor s keys) := by
  have hhooks : (accessHooks s).Builds (root.asks f) (fun _ _ => True) _ _ _ :=
    builds_of_ends _ (fun _ _ => trivial) (fun _ _ _ => .pure) (fun _ _ => .pure)
      fun t _ => accessedType?_ends hs t
  induction keys with
  | nil => exact .pure
  | cons k ks ih =>
    have hk : (root.asks f).Ends (m.propertyFor s k) :=
      .bind (walkTy_builds hhooks _ trivial) fun _ => .pure
    exact .bind hk fun _ => .bind ih fun _ => .pure

theorem expandMapped_ends (t : Ty) : (root.asks f).Ends (expandMapped s t) := by
  unfold expandMapped
  split
  · split
    · exact .pure
    · refine .bind (afresh_ends (hs.keys_answered _)) fun keys => ?_
      cases keys with
      | none => exact .pure
      | some keys => exact .bind (MappedMember.propertiesFor_ends hs _ keys) fun _ => .pure
  · exact .pure

theorem forwardTo_ends (d : Decl) : (root.asks f).Ends (forwardTo s d) := by
  unfold forwardTo
  split
  · split
    · exact .pure
    split
    · refine .bind (afresh_ends (hs.ctors_answered _ _)) fun ctors => ?_
      split
      · exact .pure
      · exact .pure
    · exact .pure
  · exact .pure

end

theorem expandTypeMappings_ends : (root.asks f).Ends (expandTypeMappings (.ofRoot root) f) :=
  walkFile_ends (fun _ _ _ => .pure) (fun _ _ => .pure) fun t hs => expandMapped_ends hs.enters t

theorem forwardCtors_ends : (root.asks f).Ends (forwardCtors (.ofRoot root) f) :=
  walkFile_ends (fun _ _ _ => .pure) (fun d hs => forwardTo_ends hs.enters d) fun _ _ => .pure

/-! ### Hoisting -/

theorem Root.Inside.isSet_codePath (hf : f.codePath.isSet = true) {s : Scope} (hs : root.Inside f s) :
    s.codePath.isSet = true := by
  have hin : ∀ {p : CodePath}, p.isSet = true → ∀ n, (p.inside n).isSet = true := by
    intro p hp n
    unfold CodePath.inside
    cases hq : n.codePath?.filter CodePath.isSet with
    | none => exact hp
    | some q => exact (Option.filter_eq_some_iff.1 hq).2
  induction hs with
  | file =>
    rw [Scope.codePath_enter, CodePath.inside, Node.codePath?, Option.filter_some_pos hf]
    exact hf
  | child _ _ _ ih =>
    rw [Scope.codePath_enter]
    exact hin ih _

theorem membersOfVar_ends {s : Scope} (hs : root.Inside f s) (v : VarDecl) :
    (root.asks f).Ends (membersOfVar s v) := by
  unfold membersOfVar
  split
  · exact .pure
  · exact .bind (afresh_ends (hs.enters.members_answered _)) fun _ => .pure
  · exact .pure

theorem hoistExports_ends (hf : f.codePath.isSet = true) :
    (root.asks f).Ends (hoistExports (.ofRoot root) f) := by
  refine walkFile_ends (fun {s} _ ds hs => ?_) (fun _ _ => .pure) fun _ _ => .pure
  show (root.asks f).Ends (if (exportEqualsTargets ds).isEmpty then pure none else _)
  split
  · exact .pure
  · exact .bind (.of_ends fun _ => hoistAll_inBlocks (P := fun _ _ => True) (membersOfVar_ends hs _ _)
      (hoistMembers_asking (hs.isSet_codePath hf)) _ _ ds) fun _ => .pure

/-! ### Interfaces -/

section
variable {s : Scope} (hs : root.Inside f s)
include hs

theorem sameMeanings_ends {c : Scope} (hc : root.Inside f c) (names : List QIdent) :
    (root.asks f).Ends (sameMeanings s c names) := by
  have hlook : ∀ {s}, root.Inside f s → ∀ q,
      (root.asks f).Ends (Resolve.afresh (s.lookupWith .all q [])) :=
    fun hs q => afresh_ends (hs.enters.lookup_answered .all q)
  induction names with
  | nil => exact .pure
  | cons q qs ih =>
    refine .bind (.bind (hlook hs q) fun _ => .bind (hlook hc q) fun _ => .pure) fun same => ?_
    cases same with
    | true => exact ih
    | false => exact .pure

theorem placeInterface_ends (pending : PendingByScope) (names : List QIdent) (inner : List Scope)
    {outer : List Scope} (houter : ∀ c ∈ outer, root.Inside f c) :
    (root.asks f).Ends (placeInterface pending s names inner outer) := by
  induction outer generalizing inner with
  | nil => exact .pure
  | cons c outer ih =>
    obtain ⟨hc, houter⟩ := List.forall_mem_cons.1 houter
    unfold placeInterface
    split
    · exact .pure
    · refine .bind (sameMeanings_ends hs hc names) fun same => ?_
      cases same with
      | true => exact ih _ houter
      | false => exact .pure

theorem placeLiteral_ends (hnum : root.Numbered f) (stem : String) (comments : Comments) (ms : List Member)
    (tparams : List TypeParam) :
    (awaiting (root.territory f).realm).Ends (placeLiteral stem s comments ms tparams) := by
  have hall : (root.territory f).AllNames := fun _ _ _ => trivial
  intro w pending
  rw [placeLiteral_run]
  have houter : ∀ c ∈ s.containers.drop 1, root.Inside f c :=
    fun c hc => hs.container (List.mem_of_mem_drop hc)
  refine Logic.Ends.bind (L := root.asks f) (placeInterface_ends hs pending _ _ houter) (fun chain => ?_) w
  refine .bind ?_ fun reused => ?_
  · unfold reusable?
    split
    · exact .pure
    · refine .bind (.of_ends fun _ => isVisible_answered hnum.territory hall hs.enters _) fun _ => ?_
      split
      · exact .pure
      · exact .pure
  · cases reused with
    | some i => exact .pure
    | none =>
      exact .bind (newName_answered hnum.territory hall hs.enters stem pending comments ms) fun _ => .pure

end

theorem extractInterfaces_ends (hnum : root.Numbered f) (stem : String) :
    (root.asks f).Ends (extractInterfaces stem (.ofRoot root) f) := by
  let L := awaiting (root.territory f).realm
  have hemit : ∀ s ds, L.Ends (emitInterfaces s ds) := by
    intro s ds
    refine .bind (fun _ _ => (root.asks f).pure trivial) fun pending => ?_
    split
    · exact .pure
    · exact .bind (fun _ _ => (root.asks f).pure trivial) fun _ => .pure
  have hwalk : L.Ends (walkFile (interfaceHooks stem) (.ofRoot root) f) :=
    walkFile_ends (fun _ ds _ => hemit _ ds) (fun _ _ => .pure) fun _ hs w =>
      extractInterface_ends (fun _ => trivial) fun _ _ _ _ _ => placeLiteral_ends hs hnum stem _ _ _ w
  exact .bind (fun w => hwalk w []) fun _ => .pure

/-! ## Classes -/

section
variable {s : Scope} (hs : root.Enters f s)
include hs

theorem ctorShape?_ends (t : Ty) : (root.asks f).Ends (ctorShape? s t) := by
  unfold ctorShape?
  split
  · exact .pure
  · exact .pure
  · refine .bind (hs.lookup_answered .types _) fun _ => ?_
    split
    · exact .bind (hs.members_answered _) fun _ => .pure
    · exact .pure
  · exact .pure

theorem instanceSide_ends (tparams : List TypeParam) (result : Option Ty) :
    (root.asks f).Ends (instanceSide s tparams result) := by
  unfold instanceSide
  split
  · exact .pure
  · split
    · exact .pure
    refine .bind (hs.lookup_answered .types _) fun _ => ?_
    split
    · exact .pure
    split
    · exact .bind (hs.members_answered _) fun _ => .pure
    · exact .pure
  · exact .pure

variable {foreseen : Failure → Prop}

theorem classOf_ends {v : VarDecl}
    (hfor : v.name = Ident.apply → ∀ x p, foreseen (.violation (.renameCallTarget x p)))
    (shape : CtorShape) (x : Ident) :
    (attempting (root.territory f).realm foreseen).Ends (classOf s v shape x) := by
  refine .bind (fun _ => attempting_of_asking (instanceSide_ends hs _ _ _)) fun inst => ?_
  split
  · exact .pure
  · dsimp only
    by_cases hname : v.name = Ident.apply ∧ x ≠ Ident.apply
    · simp only [Decl.renamed, Decl.name?, if_pos hname]
      exact fun _ => attempting_throw (hfor hname.1 _ _)
    · simp only [Decl.renamed, Decl.name?, if_neg hname]
      exact .pure

theorem extractVar_ends (suffix : String) (siblings : List Decl) {v : VarDecl}
    (hfor : v.name = Ident.apply → ∀ x p, foreseen (.violation (.renameCallTarget x p))) :
    (attempting (root.territory f).realm foreseen).Ends (extractVar suffix s siblings v) := by
  unfold extractVar
  split
  · exact .pure
  split
  · exact .pure
  refine .bind (fun _ => attempting_of_asking (ctorShape?_ends hs _ _)) fun shape? => ?_
  split
  · exact .pure
  split
  · exact .pure
  split
  · exact .pure
  · exact .bind (classOf_ends hs hfor _ _) fun _ => .pure

theorem extractEach_ends (suffix : String) (siblings : List Decl) {ds : List Decl}
    (hfor : (∃ d ∈ ds, d.HoldsVar Ident.apply) →
      ∀ x p, foreseen (.violation (.renameCallTarget x p))) :
    (attempting (root.territory f).realm foreseen).Ends (extractEach suffix s siblings ds) := by
  induction ds with
  | nil => exact .pure
  | cons d ds ih =>
    have hd : (attempting (root.territory f).realm foreseen).Ends (extractClass suffix s siblings d) := by
      unfold extractClass
      split
      · exact extractVar_ends hs suffix siblings fun hv => hfor ⟨_, .head _, .here hv⟩
      · refine .bind (extractVar_ends hs suffix siblings fun hv => ?_) fun _ => .pure
        exact hfor ⟨_, .head _, .exported (.here hv)⟩
      · exact .pure
    have hds := ih fun ⟨e, he, h⟩ => hfor ⟨e, .tail _ he, h⟩
    exact .bind (afresh_attempting hd) fun _ => .bind hds fun _ => .pure

end

/-- The members that a container is left with are reshaped, so a call target among them stands in the
file already. -/
theorem classHooks_newMembers_ends (suffix : String) {foreseen : Failure → Prop}
    (hfor : f.DeclaresVar Ident.apply → ∀ x p, foreseen (.violation (.renameCallTarget x p)))
    {s : Scope} {n : Node} {ds ds' : List Decl} (hs : root.Inside f (s.enter n))
    (hds : n.members? = some ds)
    (hall : Decl.ReshapedAll (.still (.extractClasses suffix)) (s.enter n).codePath ds ds')
    (owner : Node) :
    (attempting (root.territory f).realm foreseen).Ends
      ((classHooks suffix).newMembers (s.enter n) owner ds') := by
  refine .bind (extractEach_ends hs.enters suffix ds' fun hvar => hfor ?_) fun _ => .pure
  obtain ⟨d, hd, hvar⟩ := hall.holdsVar (Shape.still_keepsVars (by simp)) hvar
  have hctn : f.Contains (.decl d) := by
    refine .child (Root.At.contains ⟨hs, rfl⟩) ?_
    rw [Node.children_of_members? hds]
    exact List.mem_map_of_mem hd
  obtain ⟨path, hpath⟩ := hctn.nests.2 d rfl
  exact hpath.declaresVar hvar

/-- All that the hooks do is to replace members, so they build in a run what they build in one that
succeeds, if no failure to replace members is unforeseen. -/
theorem classHooks_builds {suffix : String} {D : Realm} {foreseen : Failure → Prop}
    {place : Scope → Node → Option CodePath → Prop} {S R : Unit → Unit → Scope → Node → Node → Bool → Prop}
    (hb : (classHooks suffix).Builds succeeding (fun _ _ => True) place S R)
    (hnew : ∀ {s : Scope} {n : Node} {ds ds' : List Decl} {b : Bool} (owner : Node),
      root.Inside f (s.enter n) → n.members? = some ds →
      Walked (R () () (s.enter n)) (ds.map .decl) (ds'.map .decl) b →
      (attempting D foreseen).Ends ((classHooks suffix).newMembers (s.enter n) owner ds')) :
    (classHooks suffix).Builds (attempting D foreseen) (fun s n => root.Inside f (s.enter n))
      place S R where
  idle := hb.idle
  child := Root.Inside.within
  mono := hb.mono
  plain _ := hb.plain trivial
  enterFile _ := attempting_of_succeeding .pure (hb.enterFile trivial)
  enterDecl _ := attempting_of_succeeding .pure (hb.enterDecl trivial)
  newMembers owner hs hds hw :=
    attempting_of_succeeding (hnew owner hs hds hw) (hb.newMembers owner trivial hds hw)
  newClassMembers owner _ hreb hms := attempting_of_succeeding .pure
    (hb.newClassMembers owner trivial hreb hms)
  leaveFile _ := hb.leaveFile trivial
  leaveDecl _ hp hS :=
    attempting_of_succeeding .pure (hb.leaveDecl trivial hp hS)
  leaveTy _ hS := attempting_of_succeeding .pure (hb.leaveTy trivial hS)
  keep _ := hb.keep trivial

/-- **The extraction of classes** fails only if a call target is to get another name. -/
theorem extractClasses_ends (suffix : String) {foreseen : Failure → Prop}
    (hfor : f.DeclaresVar Ident.apply → ∀ x p, foreseen (.violation (.renameCallTarget x p))) :
    (attempting (root.territory f).realm foreseen).Ends (extractClasses suffix (.ofRoot root) f) := by
  have hblds := classHooks_builds (classHooks_reshapes suffix).builds
    fun owner (hs : root.Inside f _) hds hw => classHooks_newMembers_ends suffix hfor hs hds
      (hw.reshapedAll fun hR => hR _ rfl) owner
  exact fun w => (attempting _ _).imp (walkFile_builds hblds f .file w) fun _ _ _ => trivial

end

/-! ## Runs -/

/-- **What a step can fail with**: only the extraction of classes fails, and only on a call target. -/
theorem Pass.runAnew_error {root : Root} (hdeps : root.deps.InOrder) {step : Pass} {remember : Bool}
    {f : File} (hf : f.codePath.isSet = true ∨ step ≠ .hoisting) {failure : Failure}
    (h : step.runAnew root remember f = .error failure) :
    (∃ suffix, step = .extractClasses suffix) ∧ f.DeclaresVar Ident.apply ∧
      ∃ x p, failure = .violation (.renameCallTarget x p) := by
  let g := (f.number root.deps.nextId).1
  have hnum : root.Numbered g := Root.numbered_number hdeps f
  have hrun : (attempting (root.territory g).realm fun failure =>
      (∃ suffix, step = .extractClasses suffix) ∧ f.DeclaresVar Ident.apply ∧
        ∃ x p, failure = .violation (.renameCallTarget x p)).Ends (step.run (.ofRoot root) g) := by
    cases step with
    | expandTypeMappings => exact fun _ => attempting_of_asking (expandTypeMappings_ends _)
    | extractClasses suffix =>
      exact extractClasses_ends suffix fun hvar x p =>
        ⟨⟨suffix, rfl⟩, File.declaresVar_of_number hvar, x, p, rfl⟩
    | forwardCtors => exact fun _ => attempting_of_asking (forwardCtors_ends _)
    | hoisting =>
      have hg : g.codePath.isSet = true := hf.resolve_right fun h => h rfl
      exact fun _ => attempting_of_asking (hoistExports_ends hg _)
    | extractInterfaces stem => exact fun _ => attempting_of_asking (extractInterfaces_ends hnum stem _)
    | _ => exact .pure
  simp only [Pass.runAnew] at h
  rcases hrun () _ (Session.faithful_fresh hnum.territory.apart remember) with
    ⟨e, σ, he, -, -⟩ | ⟨e, he, hfor⟩
  · rw [he] at h
    cases h
  · rw [he] at h
    cases h
    exact hfor

/-- **What several steps can fail with**, if the members of exported variables are hoisted only when no
classes are to be extracted any more: then the call target stood in the file from the start. -/
theorem runPasses_error {root : Root} (hdeps : root.deps.InOrder) {o : Options} {ps : List PassName}
    (hps : ps.Pairwise fun p q => p = .hoisting → q ≠ .extractClasses) {f : File}
    (hf : f.Placed root.lib) {e : CompileError} (h : runPasses o root ps f = .error e) :
    .extractClasses ∈ ps ∧ f.DeclaresVar Ident.apply ∧
      ∃ x p, e = ⟨.extractClasses, root.lib, .violation (.renameCallTarget x p)⟩ := by
  induction ps generalizing f with
  | nil => cases h
  | cons q ps ih =>
    obtain ⟨hq, hps⟩ := List.pairwise_cons.1 hps
    rcases runPasses_cons_error h with ⟨failure, hfail, rfl⟩ | ⟨e', he', hrest⟩
    · have hset : f.codePath.isSet = true := hf.here ▸ rfl
      obtain ⟨⟨suffix, hstep⟩, hvar, x, p, rfl⟩ := Pass.runAnew_error hdeps (.inl hset) hfail
      cases q with
      | extractClasses => exact ⟨.head _, hvar, x, p, rfl⟩
      | _ => cases hstep
    · obtain ⟨hmem, hvar, he⟩ := ih hps (Pass.runAnew_placed hdeps hf he') hrest
      have hhoist : Pass.ofOptions o root.lib q ≠ .hoisting := by
        intro hstep
        cases q with
        | hoisting => exact hq _ hmem rfl rfl
        | _ => cases hstep
      exact ⟨.tail _ hmem, Pass.runAnew_declaresVar hdeps hhoist he' hvar, he⟩

theorem compile_error {o : Options} {lib : Library} (hpls : o.isEnabled .setCodePath = true)
    {e : CompileError} (h : compile o lib = .error e) : lib.file.DeclaresVar Ident.apply ∧
      ∃ x p, e = ⟨.extractClasses, lib.name, .violation (.renameCallTarget x p)⟩ := by
  have hdeps : (lib.root o.pedantic).deps.InOrder := Dependencies.inOrder_ofFiles lib.deps
  have hrun := compile_eq_error h
  have horder : o.passes.Pairwise fun p q => p = .hoisting → q ≠ .extractClasses :=
    List.Pairwise.filter _ (by decide)
  obtain ⟨ps, hps⟩ := Options.passes_eq_cons hpls
  rw [hps] at hrun horder
  have hfirst : Pass.ofOptions o lib.name .setCodePath ≠ .hoisting := nofun
  rcases runPasses_cons_error hrun with ⟨failure, hfail, -⟩ | ⟨e', he', hrest⟩
  · obtain ⟨⟨suffix, hstep⟩, -⟩ := Pass.runAnew_error hdeps (.inr hfirst) hfail
    cases hstep
  · have hplc : e'.value.Placed lib.name := (Pass.runAnew_reshapes hdeps he').placed
    obtain ⟨-, hvar, he⟩ := runPasses_error hdeps horder.of_cons hplc hrest
    exact ⟨Pass.runAnew_declaresVar hdeps hfirst he' hvar, he⟩

/-- **The only refusal.** If declarations are given places, the only failure of a run is that the class
for a call target would need another name. A run on a file without variables that are call targets
succeeds, however deep or exported its variables are. -/
theorem compile_fails_only_on_call_targets (o : Options) (lib : Library)
    (hplaces : o.isEnabled .setCodePath = true) :
    (∀ e, compile o lib = .error e →
      ∃ x p, e = ⟨.extractClasses, lib.name, .violation (.renameCallTarget x p)⟩) ∧
    ((∀ path v, lib.file.Nests path (.var v) → v.name ≠ Ident.apply) →
      ∃ out, compile o lib = .ok out) := by
  refine ⟨fun e h => (compile_error hplaces h).2, fun hvars => ?_⟩
  cases h : compile o lib with
  | ok out => exact ⟨out, rfl⟩
  | error e =>
    obtain ⟨path, v, hv, hname⟩ := (compile_error hplaces h).1
    exact absurd hname (hvars path v hv)

/-- A namespace that exports a value with a construct signature, next to an interface of its name. -/
def constructible (x : Ident) : Library where
  name := "lib"
  deps := []
  file :=
    { info := {}
      directives := []
      codePath := .noPath
      members := [.space ⟨{}, true, "N", .noPath, .zero⟩
        [.exports ⟨{}, false, .named⟩ (.inline (.var ⟨{}, true, true, x,
          some (.constructor 0 false ⟨{}, [], [], none⟩), none, .zero, .noPath⟩)),
         .iface ⟨{}, true, x, [], [], [], .noPath⟩]] }

/-- The class for a value gets another name, unless the value is a call target. -/
theorem compile_constructible_fails_on_call_target :
    (∃ out, compile {} (constructible "C") = .ok out) ∧
      ∃ e x p, compile {} (constructible Ident.apply) = .error e ∧
        e = ⟨.extractClasses, "lib", .violation (.renameCallTarget x p)⟩ ∧ x = "^Cls" ∧
        p = .hasPath "lib" ["N", "^"] := by
  refine ⟨(compile_fails_only_on_call_targets {} (constructible "C") (by decide)).2 ?_, ?_⟩
  · intro path v hv hx
    obtain ⟨d, hd, hvar⟩ := File.declaresVar_iff.1 ⟨path, v, hv, hx⟩
    obtain rfl := List.mem_singleton.1 hd
    obtain ⟨e, he, hvar⟩ := hvar.of_members rfl
    rcases List.mem_pair.1 he with rfl | rfl
    · cases hvar with
      | member hds => cases hds
      | exported hvar =>
        obtain ⟨v, hv, hx⟩ := hvar.of_isPlain rfl
        cases hv
        exact absurd hx (by decide)
    · obtain ⟨v, ⟨⟩, -⟩ := hvar.of_isPlain rfl
  · have hrun : (match compile {} (constructible Ident.apply) with
      | .error e => decide (e.failure =
          .violation (.renameCallTarget "^Cls" (.hasPath "lib" ["N", "^"])))
      | .ok _ => false) = true := by decide +kernel
    cases h : compile {} (constructible Ident.apply) with
    | ok out => rw [h] at hrun; cases hrun
    | error e =>
      obtain ⟨x, p, rfl⟩ := (compile_fails_only_on_call_targets {} _ (by decide)).1 e h
      rw [h] at hrun
      cases of_decide_eq_true hrun
      exact ⟨_, _, _, rfl, rfl, rfl, rfl⟩

end Ambient
