import Ambient.Proofs.Normal
import Ambient.Proofs.Reshape

/-!
# What each step does to the members of containers

One step puts every declaration in its place. The others leave places alone, and all that they do to
the members of a container is said by `Decl.Yields`: what one step may put in the place of one member.
Only the extraction of interfaces adds members, at the end.

`Pass.runAnew_reshapes`: every step that succeeds reshapes its file in this way.
-/

namespace Ambient

/-! ## What a step may put in the place of a member -/

/-- The class can take the place of the variable: it has its name and place, or the name with the suffix
and the place that goes with it. -/
def VarDecl.MadeClass (suffix : String) (v : VarDecl) (c : ClassDecl) : Prop :=
  c.name = v.name ∧ c.codePath = v.codePath ∨
    c.name = v.name ++ suffix ∧ c.codePath = v.codePath.renameLast c.name

/-- The declaration can be hoisted into a container at `p`. -/
inductive Decl.HoistedTo (p : CodePath) : Decl → Prop
  | function (f : FunctionDecl) (h : f.codePath = p.add f.name) : HoistedTo p (.function f)
  | var (v : VarDecl) (h : v.codePath = p.add v.name) : HoistedTo p (.var v)

/-- What a step may put in the place of a member of a container at `p`. -/
inductive Decl.Yields (p : CodePath) : Pass → Decl → List Decl → Prop
  | same (step : Pass) (d : Decl) : Yields p step d [d]
  | stripped (f : FunctionDecl) :
    Yields p .keepFirstOverloadComment (.function f) [.function { f with info := f.info.strip }]
  | functions {v : VarDecl} {fs : List FunctionDecl} (hne : fs ≠ [])
    (h : ∀ f ∈ fs, f.name = v.name ∧ f.codePath = v.codePath) :
    Yields p .normalizeFunctions (.var v) (fs.map .function)
  | cls {suffix : String} {v : VarDecl} {c : ClassDecl} (h : v.MadeClass suffix c) :
    Yields p (.extractClasses suffix) (.var v) [.cls c]
  | exportedCls {suffix : String} (h : ExportHead) {v : VarDecl} {c : ClassDecl}
    (hc : v.MadeClass suffix c) : Yields p (.extractClasses suffix) (.exports h (.inline (.var v)))
      [.exports h (.inline (.cls c))]
  | hoisted (v : VarDecl) {ds : List Decl} (h : ∀ d ∈ ds, d.HoistedTo p) :
    Yields p .hoisting (.var v) (.var v :: ds)

/-- What a step may put in the place of the members of a container at `p`, one after the other. -/
inductive Decl.YieldsAll (p : CodePath) (step : Pass) : List Decl → List Decl → Prop
  | nil : YieldsAll p step [] []
  | cons {d : Decl} {ds ds' block : List Decl} (hd : d.Yields p step block)
    (hds : YieldsAll p step ds ds') : YieldsAll p step (d :: ds) (block ++ ds')

/-- What a step may do to the members of a container at `p`. -/
inductive Decl.Regrouped (p : CodePath) : Pass → List Decl → List Decl → Prop
  | replaced {step : Pass} {ds ds' : List Decl} (h : Decl.YieldsAll p step ds ds') :
    Regrouped p step ds ds'
  | extended {stem : String} {is : List InterfaceDecl} (ds : List Decl)
    (h : ∀ i ∈ is, i.codePath = p.add i.name) :
    Regrouped p (.extractInterfaces stem) ds (ds ++ is.map .iface)

theorem Decl.YieldsAll.refl (p : CodePath) (step : Pass) (ds : List Decl) :
    Decl.YieldsAll p step ds ds := by
  induction ds with
  | nil => exact .nil
  | cons d ds ih => exact .cons (.same step d) ih

theorem Decl.Regrouped.refl (p : CodePath) (step : Pass) (ds : List Decl) :
    Decl.Regrouped p step ds ds :=
  .replaced (.refl p step ds)

/-- The place around the parts of a node where places are left alone. -/
def CodePath.inside (p : CodePath) (n : Node) : CodePath :=
  (n.codePath?.filter CodePath.isSet).getD p

/-- Every declaration is put in its place. -/
def Shape.placing (lib : Ident) : Shape where
  within := placeWithin lib
  moved p n _ := placeWithin lib p n
  regroup _ ds ds' := ds' = ds

/-- Places are left alone, and members of containers are replaced as the step does. -/
def Shape.still (step : Pass) : Shape where
  within := CodePath.inside
  moved _ _ q := q
  regroup p ds ds' := Decl.Regrouped p step ds ds'

/-- How a step treats the declarations of a file. -/
def Pass.shape : Pass → Shape
  | .setCodePath lib => .placing lib
  | step => .still step

theorem Scope.codePath_enter (s : Scope) (n : Node) : (s.enter n).codePath = s.codePath.inside n := by
  rw [codePath, stack, enter, List.map_cons, List.findSome?_cons]
  cases h : n.codePath?.filter CodePath.isSet with
  | none => simp [CodePath.inside, h, codePath, stack]
  | some q => simp [CodePath.inside, h]

/-! ## Computations that succeed -/

/-- Computations of which something holds if they succeed. -/
def succeeding : Logic Resolve where
  World := Unit
  le _ _ := True
  refl _ := trivial
  trans _ _ := trivial
  ends _ x P := ∀ σ r, x.run σ = .ok r → P r.1 ()
  pure h σ r hr := by
    cases hr
    exact h
  bind {_ _ _ x f P Q} hx hf σ r hr := by
    rw [StateT.run_bind] at hr
    cases hx₁ : x.run σ with
    | error e => rw [hx₁] at hr; cases hr
    | ok r₁ =>
      rw [hx₁] at hr
      exact hf _ () trivial (hx σ r₁ hx₁) _ r hr

/-- Computations of which something holds if they succeed, and that keep what is known of the
interfaces that wait. -/
def keepingPending (I : PendingByScope → Prop) : Logic Extract where
  World := Unit
  le _ _ := True
  refl _ := trivial
  trans _ _ := trivial
  ends _ x P := ∀ pending σ r, I pending → (x.run pending).run σ = .ok r → I r.1.2 ∧ P r.1.1 ()
  pure h pending σ r hI hr := by
    cases hr
    exact ⟨hI, h⟩
  bind {_ _ _ x f P Q} hx hf pending σ r hI hr := by
    rw [StateT.run_bind, StateT.run_bind] at hr
    cases hx₁ : (x.run pending).run σ with
    | error e => rw [hx₁] at hr; cases hr
    | ok r₁ =>
      rw [hx₁] at hr
      obtain ⟨hI₁, hP⟩ := hx pending σ r₁ hI hx₁
      exact hf _ () trivial hP _ _ r hI₁ hr

variable {remember : Bool} {e : Edited File} {lib : Library} {ps : List PassName} {step : Pass}
  {s : Scope} {α : Type}

theorem keepingPending_lift {I : PendingByScope → Prop} {x : Resolve α} {P : α → Prop}
    (h : succeeding.ends () x fun a _ => P a) :
    (keepingPending I).ends () (liftM x : Extract α) fun a _ => P a := by
  intro pending σ r hI hr
  replace hr : (x >>= fun a => Pure.pure (a, pending)).run σ = .ok r := hr
  rw [StateT.run_bind] at hr
  obtain ⟨r₁, hx, hr⟩ := bind_eq_ok.1 hr
  cases hr
  exact ⟨hI, h σ r₁ hx⟩

theorem afresh_succeeding {x : Resolve α} {P : α → Unit → Prop} (h : succeeding.ends () x P) :
    succeeding.ends () (Resolve.afresh x) P := by
  have hany : ∀ {β : Type} (y : Resolve β), succeeding.ends () y fun _ _ => True := fun _ _ _ _ => trivial
  refine .bind (hany _) fun _ _ _ _ => .bind (hany _) fun _ _ _ _ => ?_
  refine .bind h fun a _ _ ha => .bind (hany _) fun _ _ _ _ => ?_
  exact .pure ha

/-! ## Places -/

theorem getD_newPlace? (p q : CodePath) : (newPlace? p (some q)).getD q = p := by
  show (if q = p then none else some p).getD q = p
  split
  · assumption
  · rfl

theorem setCodePaths_reshapes (lib : Ident) (f : File) :
    f.Reshaped (.placing lib) .noPath (setCodePaths lib f).value := by
  have hh : (placeHooks lib).Reshapes computing (fun _ _ => True) (fun c p => c = p) (.placing lib) :=
    { idle := {}
      child := fun _ _ => trivial
      within := fun _ hp => hp ▸ rfl
      enterFile := fun _ p hp => hp ▸ getD_newPlace? _ _
      enterDecl := fun {_ c d} _ p hp => by
        subst hp
        show d.codePath?.map (newPlace? _ d.codePath?).getD = _
        cases d.codePath? with
        | none => rfl
        | some q => exact congrArg some (getD_newPlace? _ q)
      newMembers := fun _ _ _ _ _ _ => rfl
      newClassMembers := fun _ _ _ => trivial
      leaveDecl := fun _ _ => nofun
      leaveTy := fun _ _ => trivial }
  exact walkFile_reshapes hh trivial rfl ()

/-! ## Types -/

section
variable {m : Type → Type} [Monad m] [LawfulMonad m] {C : Type}

theorem Hooks.idle_reshapes (L : Logic m) (within : C → Node → C) (step : Pass) :
    (Hooks.idle within).Reshapes L (fun _ _ => True) (fun _ _ => True) (.still step) where
  idle := {}
  child _ _ := trivial
  within _ _ := trivial
  enterFile _ := .pure fun _ _ => rfl
  enterDecl _ := .pure fun _ _ => rfl
  newMembers _ ds _ _ := .pure fun p _ => .refl p step ds
  newClassMembers _ _ _ := .pure trivial
  leaveDecl _ _ := .pure nofun
  leaveTy _ _ := .pure trivial

theorem leaveTy_reshapes (L : Logic m) {within : C → Node → C} {g : C → Ty → m (Option Ty)}
    (hg : ∀ w c t, L.ends w (g c t) fun _ _ => True) (step : Pass) :
    Hooks.Reshapes L { Hooks.idle within with leaveTy := g } (fun _ _ => True) (fun _ _ => True)
      (.still step) :=
  { Hooks.idle_reshapes L within step with idle := {}, leaveTy := fun _ _ => hg _ _ _ }

theorem Scope.idle_reshapes (L : Logic m) (step : Pass) (visits : Scope → Node → Prop)
    (hchild : ∀ {s n n'}, visits s n → n' ∈ n.children → visits (s.enter n) n') :
    (Hooks.idle Scope.enter).Reshapes L visits (fun s p => s.codePath = p) (.still step) where
  idle := {}
  child := hchild
  within _ hp := hp ▸ Scope.codePath_enter _ _
  enterFile _ := .pure fun _ _ => rfl
  enterDecl _ := .pure fun _ _ => rfl
  newMembers _ ds _ _ := .pure fun p _ => .refl p step ds
  newClassMembers _ _ _ := .pure trivial
  leaveDecl _ _ := .pure nofun
  leaveTy _ _ := .pure trivial

end

theorem simplifyTypes_reshapes (f : File) :
    f.Reshaped (.still .simplifyTypes) .noPath (simplifyTypes f).value :=
  walkFile_reshapes (leaveTy_reshapes computing (fun _ _ _ => trivial) _) trivial trivial ()

theorem expandTypeMappings_reshapes (s : Scope) (f : File) :
    succeeding.ends () (expandTypeMappings s f) fun e _ =>
      f.Reshaped (.still .expandTypeMappings) .noPath e.value :=
  walkFile_reshapes (leaveTy_reshapes succeeding (fun _ _ _ _ _ _ => trivial) _) trivial trivial ()

theorem inFile_reshapes (sub : Substitution) (f : File) :
    f.Reshaped (.still (.typeRewriter sub)) .noPath (sub.inFile f).value := by
  rw [sub.inFile_eq]
  exact walkFile_reshapes (leaveTy_reshapes computing (fun _ _ _ => trivial) _) trivial trivial ()

/-! ## Callable variables -/

theorem Ty.callSignatures?_ne_nil {t : Ty} {sigs : List Signature} (h : t.callSignatures? = some sigs) :
    sigs ≠ [] := by
  rintro rfl
  cases Ty.callSignatures?_eq_some.1 h with
  | object hne hms =>
    cases hms
    exact hne rfl

variable {p : CodePath} {d : Decl} {x : Ident} {ds : List Decl} {o : Options} {suffix : String}
  {v : VarDecl}

theorem Decl.yields_toFunctions (h : d.toFunctions? = some ds) (p : CodePath) :
    d.Yields p .normalizeFunctions ds := by
  cases d with
  | var v =>
    rw [toFunctions?, VarDecl.toFunctions?] at h
    split at h
    · cases h
    obtain ⟨t, -, h⟩ := Option.bind_eq_some_iff.1 h
    obtain ⟨sigs, hsigs, h⟩ := Option.bind_eq_some_iff.1 h
    obtain ⟨sig, sigs, rfl⟩ := List.exists_cons_of_ne_nil (Ty.callSignatures?_ne_nil hsigs)
    let function (comments : Comments) (sig : Signature) : FunctionDecl :=
      ⟨{ comments := comments }, v.declared, v.name, sig, v.jsLocation, v.codePath⟩
    have hds : ds = (function v.info.comments sig ::
        sigs.map (function v.info.comments.markersOnly)).map Decl.function := by
      cases h
      simp only [List.map_cons, keepFirstOnly, List.map_map]
      rfl
    rw [hds]
    exact .functions (List.cons_ne_nil _ _) (by simp [function])
  | _ => cases h

theorem normalizeFunctions_reshapes (f : File) :
    f.Reshaped (.still .normalizeFunctions) .noPath (normalizeFunctions f).value := by
  have hexpn : ∀ p ds, Decl.YieldsAll p .normalizeFunctions ds
      (ds.flatMap fun d => d.toFunctions?.getD [d]) := by
    intro p ds
    induction ds with
    | nil => exact .nil
    | cons d ds ih =>
      rw [List.flatMap_cons]
      cases hd : d.toFunctions? with
      | none => exact .cons (.same _ d) ih
      | some fs => exact .cons (Decl.yields_toFunctions hd p) ih
  have hh : callableHooks.Reshapes computing (fun _ _ => True) (fun _ _ => True)
      (.still .normalizeFunctions) :=
    { Hooks.idle_reshapes computing (fun _ _ => ()) .normalizeFunctions with
      idle := {}
      newMembers := fun _ ds _ _ p _ => by
        show Decl.Regrouped p _ ds ((expandEach Decl.toFunctions? ds).getD ds)
        unfold expandEach
        split
        · exact .replaced (hexpn p ds)
        · exact .refl p _ ds
      newClassMembers := fun _ _ _ => trivial
      leaveTy := fun _ _ => trivial }
  exact walkFile_reshapes hh trivial trivial ()

/-! ## Repeated comments -/

theorem yieldsAll_dropRepeated (p : CodePath) (seen : List Commented) (ds : List Decl) :
    Decl.YieldsAll p .keepFirstOverloadComment ds
      (dropRepeated Decl.commented? Decl.strip seen ds).value := by
  induction ds generalizing seen with
  | nil => exact .nil
  | cons d ds ih =>
    unfold dropRepeated
    split
    · exact .cons (.same _ d) (ih seen)
    · exact .cons (.same _ d) (ih seen)
    · rename_i c _ hc
      cases d with
      | function f =>
        split
        · exact .cons (.stripped f) (ih seen)
        · exact .cons (.same _ _) (ih _)
      | _ => cases hc

theorem Decl.Regrouped.toOption {e : Edited (List Decl)} (h : Decl.YieldsAll p step ds e.value) :
    Decl.Regrouped p step ds (e.toOption.getD ds) := by
  obtain ⟨ds', changed⟩ := e
  cases changed with
  | false => exact .refl p step ds
  | true => exact .replaced h

theorem keepFirstOverloadComment_reshapes (f : File) :
    f.Reshaped (.still .keepFirstOverloadComment) .noPath (keepFirstOverloadComment f).value := by
  have hh : overloadHooks.Reshapes computing (fun _ _ => True) (fun _ _ => True)
      (.still .keepFirstOverloadComment) :=
    { Hooks.idle_reshapes computing (fun _ _ => ()) .keepFirstOverloadComment with
      idle := {}
      newMembers := fun _ ds _ _ p _ => .toOption (yieldsAll_dropRepeated p [] ds)
      newClassMembers := fun _ _ _ => trivial }
  exact walkFile_reshapes hh trivial trivial ()

/-! ## Classes -/

theorem Decl.var_beq_of_isType (v : VarDecl) (h : d.isType = true) : (Decl.var v == d) = false := by
  cases d with
  | cls | iface | typeAlias | enum => rfl
  | _ => cases h

/-- The class has the name of its variable, which no type of the container has, or else one with the suffix,
which nothing in the container has. -/
theorem className?_eq_some {siblings : List Decl} (h : className? suffix siblings v = some x) :
    x = v.name ∧ (∀ d ∈ siblings, d.unwrapExport.isType = true → d.unwrapExport.name? ≠ some x) ∨
      x = v.name ++ suffix ∧ ∀ d ∈ siblings, d.unwrapExport.name? ≠ some x := by
  unfold className? at h
  split at h
  · cases h
  split at h
  · simp only [] at h
    split at h
    · cases h
    · rename_i hfree
      cases h
      exact .inr ⟨rfl, fun d hd hname => hfree (List.any_eq_true.2 ⟨d, hd, by simp [hname]⟩)⟩
  · rename_i hfree
    cases h
    refine .inl ⟨rfl, fun d hd htype hname => hfree (List.any_eq_true.2 ⟨d, hd, ?_⟩)⟩
    simp [htype, hname, Decl.var_beq_of_isType v htype]

theorem classOf_madeClass (s : Scope) (v : VarDecl) (shape : CtorShape)
    (hx : x = v.name ∨ x = v.name ++ suffix) :
    succeeding.ends () (classOf s v shape x) fun d _ =>
      ∃ c, d = .cls c ∧ v.MadeClass suffix c ∧ c.name = x := by
  refine .bind (P := fun _ _ => True) (fun _ _ _ => trivial) fun inst _ _ _ => ?_
  split
  · rename_i hname
    exact .pure ⟨_, rfl, .inl ⟨rfl, rfl⟩, hname.symm⟩
  · rename_i hne
    dsimp only
    split
    · rename_i d hd
      refine .pure ?_
      unfold Decl.renamed at hd
      split at hd
      · cases hd
      split at hd
      · cases hd
      cases hd
      exact ⟨_, rfl, .inr ⟨hx.resolve_left hne, rfl⟩, rfl⟩
    · exact fun _ _ h => nomatch h

theorem extractVar_madeClass (suffix : String) (s : Scope) (siblings : List Decl) (v : VarDecl) :
    succeeding.ends () (extractVar suffix s siblings v) fun r _ => ∀ d, r = some d →
      ∃ c, d = .cls c ∧ v.MadeClass suffix c ∧ className? suffix siblings v = some c.name := by
  unfold extractVar
  split
  · exact .pure nofun
  split
  · exact .pure nofun
  refine .bind (P := fun _ _ => True) (fun _ _ _ => trivial) fun shape? _ _ _ => ?_
  split
  · exact .pure nofun
  split
  · exact .pure nofun
  split
  · exact .pure nofun
  · rename_i x hx
    refine .bind (classOf_madeClass s v _ ((className?_eq_some hx).imp And.left And.left))
      fun d _ _ hd => .pure fun d' hd' => ?_
    obtain ⟨c, rfl, hc, rfl⟩ := hd
    exact ⟨c, (Option.some.inj hd').symm, hc, hx⟩

/-- The declaration is kept, or it is a variable with a class in its place, exported as the variable was. -/
inductive Decl.BecomesClass (P : VarDecl → ClassDecl → Prop) : Decl → Decl → Prop
  | kept (d : Decl) : BecomesClass P d d
  | made {v : VarDecl} {c : ClassDecl} (h : P v c) : BecomesClass P (.var v) (.cls c)
  | exported (head : ExportHead) {v : VarDecl} {c : ClassDecl} (h : P v c) :
    BecomesClass P (.exports head (.inline (.var v))) (.exports head (.inline (.cls c)))

theorem Decl.BecomesClass.yields {P : VarDecl → ClassDecl → Prop}
    (hP : ∀ {v c}, P v c → v.MadeClass suffix c) {d' : Decl} (h : d.BecomesClass P d') (p : CodePath) :
    d.Yields p (.extractClasses suffix) [d'] := by
  cases h with
  | kept => exact .same _ _
  | made h => exact .cls (hP h)
  | exported head h => exact .exportedCls head (hP h)

/-- The class has one of the names that it may have, and it has it next to the siblings. -/
def VarDecl.Named (suffix : String) (siblings : List Decl) (v : VarDecl) (c : ClassDecl) : Prop :=
  v.MadeClass suffix c ∧ className? suffix siblings v = some c.name

theorem extractClass_becomes (suffix : String) (s : Scope) (siblings : List Decl) (d : Decl) :
    succeeding.ends () (extractClass suffix s siblings d) fun r _ =>
      d.BecomesClass (VarDecl.Named suffix siblings) (r.getD d) := by
  unfold extractClass
  split
  · refine succeeding.imp (extractVar_madeClass suffix s siblings _) fun r _ hr => ?_
    cases r with
    | none => exact .kept _
    | some d =>
      obtain ⟨c, rfl, hc⟩ := hr d rfl
      exact .made hc
  · refine .bind (extractVar_madeClass suffix s siblings _) fun r _ _ hr => ?_
    refine .pure ?_
    cases r with
    | none => exact .kept _
    | some d =>
      obtain ⟨c, rfl, hc⟩ := hr d rfl
      exact .exported _ hc
  · exact .pure (.kept _)

theorem extractEach_becomes (suffix : String) (s : Scope) (siblings ds : List Decl) :
    succeeding.ends () (extractEach suffix s siblings ds) fun e _ =>
      List.Forall₂ (Decl.BecomesClass (VarDecl.Named suffix siblings)) ds e.value ∧
        (e.changed = false → e.value = ds) := by
  induction ds with
  | nil => exact .pure ⟨.nil, fun _ => rfl⟩
  | cons d ds ih =>
    have hd := afresh_succeeding (extractClass_becomes suffix s siblings d)
    refine .bind hd fun r _ _ hr => .bind ih fun e _ _ he => ?_
    refine .pure ?_
    cases r with
    | none => exact ⟨.cons hr he.1, fun h => congrArg (d :: ·) (he.2 h)⟩
    | some d' => exact ⟨.cons hr he.1, fun h => by cases h⟩

theorem Decl.YieldsAll.of_forall₂ {R : Decl → Decl → Prop}
    (hR : ∀ {d d'}, R d d' → d.Yields p step [d']) {ds' : List Decl} (h : List.Forall₂ R ds ds') :
    Decl.YieldsAll p step ds ds' := by
  induction h with
  | nil => exact .nil
  | cons hd _ ih => exact .cons (hR hd) ih

theorem classHooks_reshapes (suffix : String) :
    (classHooks suffix).Reshapes succeeding (fun _ _ => True) (fun s p => s.codePath = p)
      (.still (.extractClasses suffix)) :=
  { Scope.idle_reshapes succeeding (.extractClasses suffix) (fun _ _ => True) fun _ _ => trivial with
    idle := {}
    newMembers := fun {_ s n _} _ ds _ _ =>
      .bind (extractEach_becomes suffix (s.enter n) ds ds) fun _ _ _ he =>
        .pure fun _ hp => hp ▸ .toOption (.of_forall₂ (·.yields And.left _) he.1) }

theorem extractClasses_reshapes (suffix : String) (root : Root) (f : File) :
    succeeding.ends () (extractClasses suffix (.ofRoot root) f) fun e _ =>
      f.Reshaped (.still (.extractClasses suffix)) .noPath e.value :=
  walkFile_reshapes (classHooks_reshapes suffix) trivial rfl ()

theorem forwardCtors_reshapes (root : Root) (f : File) :
    succeeding.ends () (forwardCtors (.ofRoot root) f) fun e _ =>
      f.Reshaped (.still .forwardCtors) .noPath e.value := by
  have hfwd : ∀ s d, succeeding.ends () (forwardTo s d) fun r _ => ∀ d', r = some d' →
      d.isPlain = true ∧ d'.kind = d.kind ∧ d'.name? = d.name? ∧ d'.codePath? = d.codePath? := by
    intro s d
    unfold forwardTo
    split
    · split
      · exact .pure nofun
      split
      · refine .bind (P := fun _ _ => True) (fun _ _ _ => trivial) fun ctors _ _ _ => ?_
        split
        · exact .pure nofun
        · refine .pure fun d' hd' => ?_
          cases hd'
          exact ⟨rfl, rfl, rfl, rfl⟩
      · exact .pure nofun
    · exact .pure nofun
  have hh : constructorHooks.Reshapes succeeding (fun _ _ => True) (fun s p => s.codePath = p)
      (.still .forwardCtors) :=
    { Scope.idle_reshapes succeeding .forwardCtors (fun _ _ => True) fun _ _ => trivial with
      idle := {}
      leaveDecl := fun d' _ => hfwd _ d' }
  exact walkFile_reshapes hh trivial rfl ()

/-! ## Members of exported variables -/

theorem Member.HoistedAs.hoistedTo {m : Member} (h : m.HoistedAs v p x d) : d.HoistedTo p := by
  cases h with
  | call | method => exact .function _ rfl
  | property => exact .var _ rfl

theorem hoistMembers_succeeding {ms : List Member} :
    succeeding.ends () (liftM (hoistMembers v p ms)) fun ds _ => hoistMembers v p ms = .ok ds := by
  intro σ r hr
  replace hr : (hoistMembers v p ms >>= fun ds => pure (ds, σ)) = .ok r := hr
  obtain ⟨ds, hms, hr⟩ := bind_eq_ok.1 hr
  cases hr
  exact hms

theorem hoistedBy_yields (s : Scope) (targets existing : List Ident) (d : Decl) :
    succeeding.ends () (hoistedBy s targets existing d) fun ds _ =>
      d.Yields s.codePath .hoisting (d :: ds) := by
  refine Logic.imp (hoistedBy_hoists (P := fun _ _ => True) (fun _ _ _ => trivial)
    hoistMembers_succeeding targets existing d) fun ds _ h => ?_
  cases h with
  | other => exact .same _ _
  | target _ _ hds =>
    refine .hoisted _ fun e he => ?_
    obtain ⟨m, -, x, hm, -⟩ := hds.exists_of_mem he
    exact hm.hoistedTo

theorem hoistAll_yields (s : Scope) (targets existing : List Ident) (ds : List Decl) :
    succeeding.ends () (hoistAll s targets existing ds) fun e _ =>
      Decl.YieldsAll s.codePath .hoisting ds e.value := by
  induction ds with
  | nil => exact .pure .nil
  | cons d ds ih =>
    refine .bind (hoistedBy_yields s targets existing d) fun hoisted _ _ hd => ?_
    exact .bind ih fun e _ _ he => .pure (.cons hd he)

theorem hoistExports_reshapes (root : Root) (f : File) :
    succeeding.ends () (hoistExports (.ofRoot root) f) fun e _ =>
      f.Reshaped (.still .hoisting) .noPath e.value := by
  have hh : hoistHooks.Reshapes succeeding (fun _ _ => True) (fun s p => s.codePath = p)
      (.still .hoisting) :=
    { Scope.idle_reshapes succeeding .hoisting (fun _ _ => True) fun _ _ => trivial with
      idle := {}
      newMembers := fun {w s n _} _ ds _ _ => by
        show succeeding.ends w (if (exportEqualsTargets ds).isEmpty then pure none else _) _
        split
        · exact .pure fun p _ => .refl p _ ds
        · refine .bind (hoistAll_yields (s.enter n) _ _ ds) fun e _ _ he => ?_
          exact .pure fun p hp => hp ▸ .toOption he }
  exact walkFile_reshapes hh trivial rfl ()

/-! ## Interfaces -/

section
variable {I : PendingByScope → Prop}

theorem keepingPending_get : (keepingPending I).ends () get fun pending _ => I pending := by
  intro pending σ r hI hr
  cases hr
  exact ⟨hI, hI⟩

theorem keepingPending_set {pending : PendingByScope} (h : I pending) :
    (keepingPending I).ends () (set pending) fun _ _ => True := by
  intro _ σ r _ hr
  cases hr
  exact ⟨h, trivial⟩

theorem placeInterface_mem (pending : PendingByScope) (s : Scope) (names : List QIdent) (inner outer : List Scope) :
    succeeding.ends () (placeInterface pending s names inner outer) fun chain _ =>
      chain ⊆ inner ++ outer := by
  induction outer generalizing inner with
  | nil => exact .pure fun c hc => List.mem_append_left _ hc
  | cons c outer ih =>
    unfold placeInterface
    split
    · exact .pure fun c hc => List.mem_append_left _ hc
    · refine .bind (P := fun _ _ => True) (fun _ _ _ => trivial) fun same _ _ _ => ?_
      split
      · exact succeeding.imp (ih _) fun chain _ hchain d hd => by simpa using hchain hd
      · exact .pure fun c hc => List.mem_append_left _ hc

/-- To place a literal keeps what a new interface for it keeps. -/
theorem placeLiteral_keeps (stem : String) (s : Scope) (comments : Comments) (ms : List Member)
    (tparams : List TypeParam)
    (h : ∀ {pending : PendingByScope} {chain : List Scope} {i : InterfaceDecl}, I pending →
      chain ⊆ s.containers → i.codePath = (chain.getLast?.getD s).codePath.add i.name →
      (∃ x p, i = ⟨{ comments := comments }, true, x, tparams, [], ms, p⟩) →
      I (pending.add (chain.getLast?.getD s) i)) :
    (keepingPending I).ends () (placeLiteral stem s comments ms tparams) fun _ _ => True := by
  let L := keepingPending I
  have hany : ∀ {α : Type} (x : Resolve α), L.ends () (liftM x : Extract α) fun _ _ => True :=
    fun x => keepingPending_lift (P := fun _ => True) fun _ _ _ => trivial
  refine .bind keepingPending_get fun pending _ _ hpend => ?_
  refine .bind (keepingPending_lift (placeInterface_mem pending s _ _ _)) fun chain _ _ hchain => ?_
  rw [List.take_append_drop] at hchain
  refine .bind (hany _) fun reused _ _ _ => ?_
  split
  · exact .pure trivial
  · refine .bind (hany _) fun x _ _ _ => ?_
    exact .bind (keepingPending_set (h hpend hchain rfl ⟨_, _, rfl⟩)) fun _ _ _ _ => .pure trivial

theorem emitInterfaces_keeps (s : Scope) (ds : List Decl)
    (h : ∀ {pending : PendingByScope}, I pending → I (pending.without s)) :
    (keepingPending I).ends () (emitInterfaces s ds) fun r _ =>
      ∃ pending, I pending ∧ r.getD ds = ds ++ (pending.waiting s).map Decl.iface := by
  refine .bind keepingPending_get fun pending _ _ hpend => ?_
  split
  · rename_i hnone
    exact .pure ⟨pending, hpend, by simp [PendingByScope.waiting, hnone]⟩
  · rename_i waiting hwait
    refine .bind (keepingPending_set (h hpend)) fun _ _ _ _ => .pure ⟨pending, hpend, ?_⟩
    rw [PendingByScope.waiting, hwait]
    rfl

theorem extractInterfaces_succeeding {stem : String} {f : File} {P : Edited File → Prop}
    (h : (keepingPending I).ends () (walkFile (interfaceHooks stem) s f) fun e _ => P e) (hI : I []) :
    succeeding.ends () (extractInterfaces stem s f) fun e _ => P e := by
  intro σ r hr
  rw [extractInterfaces, StateT.run_bind] at hr
  obtain ⟨r₁, hwalk, hr⟩ := bind_eq_ok.1 hr
  cases hr
  exact (h [] σ r₁ hI hwalk).2

end

/-- Every interface that waits for a container of the file has the place that goes with it. -/
def PendingByScope.Located (root : Root) (f : File) (pending : PendingByScope) : Prop :=
  ∀ {c}, root.Inside f c → ∀ i ∈ pending.waiting c, i.codePath = c.codePath.add i.name

section
variable {root : Root} {f : File} {pending : PendingByScope}

theorem PendingByScope.Located.add (hnum : root.Numbered f) (h : pending.Located root f) {c : Scope}
    (hc : root.Inside f c) {i : InterfaceDecl} (hi : i.codePath = c.codePath.add i.name) :
    (pending.add c i).Located root f := by
  intro d hd j hj
  obtain hj | ⟨hkey, rfl⟩ := mem_waiting_add hj
  · exact h hd j hj
  · obtain rfl := hnum.key_inj hd.enters hc.enters hkey
    exact hi

theorem placeLiteral_located (hnum : root.Numbered f) (stem : String) (hs : root.Inside f s)
    (comments : Comments) (ms : List Member) (tparams : List TypeParam) :
    (keepingPending (PendingByScope.Located root f)).ends ()
      (placeLiteral stem s comments ms tparams) fun _ _ => True := by
  refine placeLiteral_keeps stem s comments ms tparams fun hpend hchain hpath _ => ?_
  refine hpend.add hnum ?_ hpath
  cases hlast : List.getLast? _ with
  | none => exact hs
  | some c => exact hs.container (hchain (List.mem_of_getLast? hlast))

theorem extractInterfaces_reshapes (hnum : root.Numbered f) (stem : String) :
    succeeding.ends () (extractInterfaces stem (.ofRoot root) f) fun e _ =>
      f.Reshaped (.still (.extractInterfaces stem)) .noPath e.value := by
  let L := keepingPending (PendingByScope.Located root f)
  have hemit : ∀ s ds, root.Inside f s → L.ends () (emitInterfaces s ds) fun r _ =>
      Decl.Regrouped s.codePath (.extractInterfaces stem) ds (r.getD ds) := by
    intro s ds hs
    refine L.imp (emitInterfaces_keeps s ds fun h _ hd i hi =>
      h hd i (PendingByScope.mem_waiting_of_without hi)) ?_
    rintro r _ ⟨pending, hpend, hr⟩
    rw [hr]
    exact .extended ds (hpend hs)
  have hh : (interfaceHooks stem).Reshapes L (fun s n => root.Inside f (s.enter n))
      (fun s p => s.codePath = p) (.still (.extractInterfaces stem)) :=
    { Scope.idle_reshapes L (.extractInterfaces stem) (fun s n => root.Inside f (s.enter n))
        Root.Inside.within with
      idle := {}
      newMembers := fun _ ds hs _ => L.imp (hemit _ ds hs) fun _ _ hr p hp => hp ▸ hr
      leaveTy := fun _ hs => extractInterface_ends (fun _ => trivial) fun _ _ _ _ _ =>
        placeLiteral_located hnum stem hs _ _ _ }
  exact extractInterfaces_succeeding (walkFile_reshapes hh .file rfl ()) fun _ _ h => by cases h

end

/-! ## All steps -/

mutual

theorem Decl.reshaped_renumber (step : Pass) (p : CodePath) :
    (d : Decl) → (n : NodeId) → d.Reshaped (.still step) p ((d.renumber nextId).run n).1
  | .space _ ms, n | .module _ ms, n | .augmentation _ ms, n | .global _ ms, n =>
    .container rfl rfl ⟨rfl, rfl, rfl⟩ (Decl.reshapedAll_renumber step _ ms (n + 1)) (.refl _ _ _)
  | .cls _, _ | .iface _, _ | .enum _, _ | .var _, _ | .function _, _ | .typeAlias _, _ =>
    .plain rfl ⟨rfl, rfl, rfl⟩
  | .imports i, _ => .link (.imports i) rfl
  | .exports _ (.inline d), n => .inline rfl (Decl.reshaped_renumber step _ d (n + 1))
  | .exports h (.names xs m), _ => .link (.names h xs m) rfl
  | .exports h (.star x m), _ => .link (.star h x m) rfl
  | .exportAs e, _ => .link (.exportAs e) rfl

theorem Decl.reshapedAll_renumber (step : Pass) (p : CodePath) :
    (ds : List Decl) → (n : NodeId) →
      Decl.ReshapedAll (.still step) p ds ((Decl.renumberList nextId ds).run n).1
  | [], _ => .nil
  | d :: ds, n => .cons (Decl.reshaped_renumber step p d n) (Decl.reshapedAll_renumber step p ds _)

end

theorem File.reshaped_number (step : Pass) (f : File) (n : NodeId) :
    f.Reshaped (.still step) .noPath (f.number n).1 :=
  ⟨rfl, _, Decl.reshapedAll_renumber step _ f.members (n + 1), .refl _ _ _⟩

theorem Pass.runAnew_ok {p : Pass} {root : Root} {f : File} (h : p.runAnew root remember f = .ok e) :
    ∃ σ σ', (p.run (.ofRoot root) (f.number root.deps.nextId).1).run σ = .ok (e, σ') := by
  let σ : Session := { memo := if remember then some {} else none }
  replace h : ((p.run (.ofRoot root) (f.number root.deps.nextId).1).run σ >>= fun r => pure r.1) =
    .ok e := h
  obtain ⟨r, hrun, h⟩ := bind_eq_ok.1 h
  cases h
  exact ⟨σ, r.2, hrun⟩

/-- **Every step that succeeds reshapes its file** as it treats places and members. -/
theorem Pass.runAnew_reshapes {root : Root} (hdeps : root.deps.InOrder) {p : Pass} {f : File}
    (h : p.runAnew root remember f = .ok e) :
    (f.number root.deps.nextId).1.Reshaped p.shape .noPath e.value := by
  have hrun : succeeding.ends () (p.run (.ofRoot root) (f.number root.deps.nextId).1) fun e _ =>
      (f.number root.deps.nextId).1.Reshaped p.shape .noPath e.value := by
    cases p with
    | setCodePath lib => exact .pure (setCodePaths_reshapes lib _)
    | simplifyTypes => exact .pure (simplifyTypes_reshapes _)
    | expandTypeMappings => exact expandTypeMappings_reshapes _ _
    | normalizeFunctions => exact .pure (normalizeFunctions_reshapes _)
    | extractClasses suffix => exact extractClasses_reshapes suffix root _
    | forwardCtors => exact forwardCtors_reshapes root _
    | hoisting => exact hoistExports_reshapes root _
    | extractInterfaces stem => exact extractInterfaces_reshapes (Root.numbered_number hdeps f) stem
    | typeRewriter sub => exact .pure (inFile_reshapes sub _)
    | keepFirstOverloadComment => exact .pure (keepFirstOverloadComment_reshapes _)
  obtain ⟨σ, σ', hr⟩ := Pass.runAnew_ok h
  exact hrun σ _ hr

/-! ## Runs -/

theorem runPasses_cons_ok {root : Root} {p : PassName} {f f' : File} {changed : List PassName}
    (h : runPasses o root (p :: ps) f = .ok (f', changed)) :
    ∃ e rest, (Pass.ofOptions o root.lib p).runAnew root o.enableScopeCache f = .ok e ∧
      runPasses o root ps e.value = .ok (f', rest) := by
  rw [runPasses] at h
  split at h
  · cases h
  · rename_i e he
    obtain ⟨⟨g, rest⟩, hrest, h⟩ := bind_eq_ok.1 h
    cases h
    exact ⟨e, rest, he, hrest⟩

theorem runPasses_cons_error {root : Root} {p : PassName} {f : File} {e : CompileError}
    (h : runPasses o root (p :: ps) f = .error e) :
    (∃ failure, (Pass.ofOptions o root.lib p).runAnew root o.enableScopeCache f = .error failure ∧
      e = ⟨p, root.lib, failure⟩) ∨
    ∃ e', (Pass.ofOptions o root.lib p).runAnew root o.enableScopeCache f = .ok e' ∧
      runPasses o root ps e'.value = .error e := by
  rw [runPasses] at h
  split at h
  · rename_i failure hfail
    cases h
    exact .inl ⟨failure, hfail, rfl⟩
  · rename_i e' he'
    cases hrest : runPasses o root ps e'.value with
    | error err =>
      rw [hrest] at h
      cases h
      exact .inr ⟨e', he', hrest⟩
    | ok r => rw [hrest] at h; cases h

theorem compile_ok {out : Compiled} (h : compile o lib = .ok out) :
    ∃ changed, runPasses o (lib.root o.pedantic) o.passes lib.file = .ok (out.file, changed) := by
  replace h : (runPasses o (lib.root o.pedantic) o.passes lib.file >>= fun r =>
    pure ⟨lib.name, r.1, o.passes, r.2⟩) = .ok out := h
  obtain ⟨r, hrun, h⟩ := bind_eq_ok.1 h
  cases h
  exact ⟨r.2, hrun⟩

theorem compile_eq_error {e : CompileError} (h : compile o lib = .error e) :
    runPasses o (lib.root o.pedantic) o.passes lib.file = .error e := by
  replace h : (runPasses o (lib.root o.pedantic) o.passes lib.file >>= fun r =>
    pure (⟨lib.name, r.1, o.passes, r.2⟩ : Compiled)) = .error e := h
  cases hrun : runPasses o (lib.root o.pedantic) o.passes lib.file with
  | error err =>
    rw [hrun] at h
    cases h
    rfl
  | ok r => rw [hrun] at h; cases h

end Ambient
