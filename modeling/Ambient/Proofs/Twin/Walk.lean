import Ambient.Proofs.Twin.Step

/-!
# Walking twins

Two walks over twins go in step when their hooks do (`walkFile_twin`). What the hooks give back at a
pair of twins are twins again. Where it matters which steps change a file the two also have to agree on
what they replace; `strict` says whether it does.
-/

namespace Ambient

/-! ## Edited values -/

section
variable {α β γ δ : Type} {strict : Prop} {R : α → β → Prop} {S : γ → δ → Prop}

/-- The values are related, and both were replaced or neither if that matters. -/
structure Edited.Twin (strict : Prop) (R : α → β → Prop) (e : Edited α) (e' : Edited β) : Prop where
  value : R e.value e'.value
  changed : strict → e.changed = e'.changed

/-- What takes the place of two values is related, and both are replaced or neither if that matters. -/
structure Replaced (strict : Prop) (R : α → β → Prop) (a : α) (b : β) (r : Option α) (r' : Option β) :
    Prop where
  value : R (r.getD a) (r'.getD b)
  isSome : strict → r.isSome = r'.isSome

theorem Replaced.map {f : α → γ} {g : β → δ} {a : α} {b : β} {r : Option α} {r' : Option β}
    (h : Replaced strict R a b r r') (hfg : ∀ {a b}, R a b → S (f a) (g b)) :
    Replaced strict S (f a) (g b) (r.map f) (r'.map g) :=
  ⟨by rw [Option.getD_map, Option.getD_map]; exact hfg h.value,
    fun hs => by rw [Option.isSome_map, Option.isSome_map]; exact h.isSome hs⟩

theorem Replaced.bind {f : α → γ} {g : β → δ} {a : α} {b : β} {r : Option α} {r' : Option β}
    (h : Replaced strict R a b r r') (hfg : ∀ {a b}, R a b → S (f a) (g b)) :
    Replaced strict S (f a) (g b) (r.bind fun a => some (f a)) (r'.bind fun b => some (g b)) := by
  have hmap := h.map hfg
  rwa [Option.map_eq_bind, Option.map_eq_bind] at hmap

theorem Replaced.of_rel {a : α} {b : β} {r : Option α} {r' : Option β} (hab : R a b)
    (h : Option.Rel R r r') : Replaced strict R a b r r' :=
  ⟨h.getD hab, fun _ => h.isSome_eq⟩

namespace Edited.Twin

variable {e : Edited α} {e' : Edited β}

theorem keep {a : α} {b : β} (h : R a b) : (Edited.keep a).Twin strict R (Edited.keep b) :=
  ⟨h, fun _ => rfl⟩

theorem map {f : α → γ} {g : β → δ} (h : e.Twin strict R e') (hfg : ∀ {a b}, R a b → S (f a) (g b)) :
    (f <$> e).Twin strict S (g <$> e') :=
  ⟨hfg h.value, h.changed⟩

theorem ap {f : Edited (α → γ)} {g : Edited (β → δ)}
    (hfg : f.Twin strict (fun f g => ∀ a b, R a b → S (f a) (g b)) g) (h : e.Twin strict R e') :
    (f <*> e).Twin strict S (g <*> e') :=
  ⟨hfg.value _ _ h.value, fun hs => congrArg₂ Bool.or (hfg.changed hs) (h.changed hs)⟩

theorem replace {r : Option α} {r' : Option β} (h : e.Twin strict R e')
    (hr : Replaced strict R e.value e'.value r r') :
    (e.replace r).Twin strict R (e'.replace r') := by
  rw [Edited.replace_eq, Edited.replace_eq]
  exact ⟨hr.value, fun hs => congrArg₂ Bool.or (hr.isSome hs) (h.changed hs)⟩

theorem toOption {a : α} {b : β} (h : e.Twin strict R e') (ha : e.changed = false → e.value = a)
    (hb : e'.changed = false → e'.value = b) : Replaced strict R a b e.toOption e'.toOption := by
  constructor
  · rw [Edited.getD_toOption ha, Edited.getD_toOption hb]
    exact h.value
  · rw [Edited.isSome_toOption, Edited.isSome_toOption]
    exact h.changed

theorem toOption_rel (h : e.Twin True R e') : Option.Rel R e.toOption e'.toOption := by
  rw [Edited.toOption, Edited.toOption, h.changed trivial]
  split
  · exact .some h.value
  · exact .none

end Edited.Twin

theorem Pairing.thenStep {m n : Type → Type} [Monad m] [Monad n] [LawfulMonad m] [LawfulMonad n]
    (P : Pairing m n) {e : Edited α} {e' : Edited β} {step : α → m (Option α)}
    {step' : β → n (Option β)} (h : e.Twin strict R e')
    (hstep : P.rel (Replaced strict R e.value e'.value) (step e.value) (step' e'.value)) :
    P.rel (Edited.Twin strict R) (e.thenStep step) (e'.thenStep step') :=
  P.bind hstep fun _ _ hr => P.pure (h.replace hr)

end

/-! ## Hooks -/

/-- The hooks of two walks go in step on twins in related contexts. -/
structure Hooks.Twin {m n : Type → Type} [Monad m] [Monad n] [LawfulMonad m] [LawfulMonad n] {C D : Type}
    (P : Pairing m n) (L : Leeway) (strict : Prop) (ctx : C → D → Prop) (h : Hooks m C)
    (k : Hooks n D) : Prop where
  idle : h.Plain
  idle' : k.Plain
  within : ∀ {c d x y}, ctx c d → x.Twin L y → ctx (h.within c x) (k.within d y)
  enterFile : ∀ {c d f g}, ctx c d → f.Twin L g → P.rel Eq (h.enterFile c f) (k.enterFile d g)
  enterDecl : ∀ {c d x y}, ctx c d → x.Twin L y → P.rel Eq (h.enterDecl c x) (k.enterDecl d y)
  newMembers : ∀ {c d xs ys} owner owner', ctx c d → List.Forall₂ (Decl.Twin L) xs ys →
    P.rel (Replaced strict (List.Forall₂ (Decl.Twin L)) xs ys) (h.newMembers c owner xs)
      (k.newMembers d owner' ys)
  newClassMembers : ∀ {c d xs ys} owner owner', ctx c d → List.Forall₂ (Member.Twin L) xs ys →
    P.rel (Replaced strict (List.Forall₂ (Member.Twin L)) xs ys) (h.newClassMembers c owner xs)
      (k.newClassMembers d owner' ys)
  leaveDecl : ∀ {c d x y}, ctx c d → x.Twin L y →
    P.rel (Replaced strict (Decl.Twin L) x y) (h.leaveDecl c x) (k.leaveDecl d y)
  leaveTy : ∀ {c d t u}, ctx c d → t.Twin L u →
    P.rel (Replaced strict (Ty.Twin L) t u) (h.leaveTy c t) (k.leaveTy d u)

theorem leaveTy_twin {m n : Type → Type} [Monad m] [Monad n] [LawfulMonad m] [LawfulMonad n] {C D : Type}
    (P : Pairing m n) {L : Leeway} {strict : Prop} {ctx : C → D → Prop} {w : C → Node → C}
    {w' : D → Node → D} {g : C → Ty → m (Option Ty)} {g' : D → Ty → n (Option Ty)}
    (hw : ∀ {c d x y}, ctx c d → x.Twin L y → ctx (w c x) (w' d y))
    (hg : ∀ {c d t u}, ctx c d → t.Twin L u → P.rel (Option.Rel (Ty.Twin L)) (g c t) (g' d u)) :
    Hooks.Twin P L strict ctx { Hooks.idle w with leaveTy := g }
      { Hooks.idle w' with leaveTy := g' } where
  idle := {}
  idle' := {}
  within := hw
  enterFile _ _ := P.pure rfl
  enterDecl _ _ := P.pure rfl
  newMembers _ _ _ hxs := P.pure (.of_rel hxs .none)
  newClassMembers _ _ _ hxs := P.pure (.of_rel hxs .none)
  leaveDecl _ hx := P.pure (.of_rel hx .none)
  leaveTy hc ht := P.mono (hg hc ht) fun h => .of_rel ht h

theorem newMembers_twin {m n : Type → Type} [Monad m] [Monad n] [LawfulMonad m] [LawfulMonad n]
    {C D : Type} (P : Pairing m n) {L : Leeway} {strict : Prop} {ctx : C → D → Prop} {w : C → Node → C}
    {w' : D → Node → D} {g : C → List Decl → m (Option (List Decl))}
    {g' : D → List Decl → n (Option (List Decl))}
    (hw : ∀ {c d x y}, ctx c d → x.Twin L y → ctx (w c x) (w' d y))
    (hg : ∀ {c d xs ys}, ctx c d → Decl.Twins L xs ys →
      P.rel (Option.Rel (Decl.Twins L)) (g c xs) (g' d ys)) :
    Hooks.Twin P L strict ctx { Hooks.idle w with newMembers := fun c _ xs => g c xs }
      { Hooks.idle w' with newMembers := fun d _ ys => g' d ys } where
  idle := {}
  idle' := {}
  within := hw
  enterFile _ _ := P.pure rfl
  enterDecl _ _ := P.pure rfl
  newMembers _ _ hc hxs := P.mono (hg hc hxs) fun h => .of_rel hxs h
  newClassMembers _ _ _ hxs := P.pure (.of_rel hxs .none)
  leaveDecl _ hx := P.pure (.of_rel hx .none)
  leaveTy _ ht := P.pure (.of_rel ht .none)

/-! ## Places and members -/

variable {x y : Decl} {f g : File}

section
variable {L : Leeway} {strict : Prop}

theorem Decl.Twin.withCodePath? (hx : x.Twin L y) (p : CodePath) :
    Option.Rel (Decl.Twin L) (x.withCodePath? p) (y.withCodePath? p) := by
  cases hx with
  | space hh hms => exact .some (.space { hh with codePath := rfl } hms)
  | module hh hms => exact .some (.module { hh with codePath := rfl } hms)
  | augmentation hh hms => exact .some (.augmentation { hh with codePath := rfl } hms)
  | global hh hms => exact .some (.global { hh with codePath := rfl } hms)
  | cls hc => exact .some (.cls { hc with codePath := rfl })
  | iface hi => exact .some (.iface { hi with codePath := rfl })
  | enum he => exact .some (.enum { he with codePath := rfl })
  | var hv => exact .some (.var { hv with codePath := rfl })
  | function hf => exact .some (.function { hf with codePath := rfl })
  | typeAlias ha => exact .some (.typeAlias { ha with codePath := rfl })
  | imports | exports | exportAs => exact .none

theorem Decl.Twin.atPlace (hx : x.Twin L y) (p : Option CodePath) :
    (x.atPlace p).Twin strict (Decl.Twin L) (y.atPlace p) := by
  refine (Edited.Twin.keep hx).replace (.of_rel hx ?_)
  cases p with
  | none => exact .none
  | some p => exact hx.withCodePath? p

theorem File.Twin.atPlace (hf : f.Twin L g) (p : Option CodePath) :
    (f.atPlace p).Twin strict (File.Twin L) (g.atPlace p) := by
  cases p with
  | none => exact .keep hf
  | some p => exact ⟨{ hf with codePath := rfl }, fun _ => rfl⟩

theorem Decl.Twin.withMembers? (hx : x.Twin L y) {r r' : Option (List Decl)}
    (hr : Replaced strict (Decl.Twins L) (x.members?.getD []) (y.members?.getD []) r r') :
    Replaced strict (Decl.Twin L) x y (r.bind fun ds => x.withMembers? ds)
      (r'.bind fun ds => y.withMembers? ds) := by
  cases hx with
  | space hh => exact hr.bind (.space hh)
  | module hh => exact hr.bind (.module hh)
  | augmentation hh => exact hr.bind (.augmentation hh)
  | global hh => exact hr.bind (.global hh)
  | _ =>
    simp only [Decl.withMembers?, Option.bind_fun_none]
    exact .of_rel (by constructor <;> assumption) .none

theorem Decl.Twin.classMembers? (hx : x.Twin L y) :
    Option.Rel (Member.Twins L) x.classMembers? y.classMembers? := by
  cases hx with
  | cls hc => exact .some hc.members
  | iface hi => exact .some hi.members
  | _ => exact .none

theorem Decl.Twin.withClassMembers? (hx : x.Twin L y) {r r' : Option (List Member)}
    (hr : Replaced strict (Member.Twins L) (x.classMembers?.getD [])
      (y.classMembers?.getD []) r r') :
    Replaced strict (Decl.Twin L) x y (r.bind fun ms => x.withClassMembers? ms)
      (r'.bind fun ms => y.withClassMembers? ms) := by
  cases hx with
  | @cls c d hc =>
    exact hr.bind (f := fun ms => Decl.cls { c with members := ms })
      (g := fun ms => Decl.cls { d with members := ms }) fun hms => .cls { hc with members := hms }
  | @iface i j hi =>
    exact hr.bind (f := fun ms => Decl.iface { i with members := ms })
      (g := fun ms => Decl.iface { j with members := ms }) fun hms => .iface { hi with members := hms }
  | _ =>
    simp only [Decl.withClassMembers?, Option.bind_fun_none]
    exact .of_rel (by constructor <;> assumption) .none

end

/-! ## The walk -/

section
variable {m n : Type → Type} [Monad m] [Monad n] [LawfulMonad m] [LawfulMonad n] {C D : Type}
  {P : Pairing m n} {L : Leeway} {strict : Prop} {ctx : C → D → Prop} {h : Hooks m C} {k : Hooks n D}
  {c : C} {d : D}

theorem Form.walk_twin {α β : Type} {R : α → β → Prop} {x : Form α} {y : Form β} (hx : Form.Twin L L R x y)
    (hone : x.All fun i a => ∀ {b}, i.Twin L a b →
      P.rel (Edited.Twin strict (i.Twin L)) (i.walk h c a) (i.walk k d b)) :
    P.rel (Edited.Twin strict R) (x.walk h c) (y.walk k d) := by
  induction hx with
  | pure hab => exact P.pure (.keep hab)
  | one hab => exact hone hab
  | map _ hfg ih => exact P.bind (ih hone) fun _ _ he => P.pure (he.map hfg)
  | ap _ _ ihf ihx =>
    exact P.bind (ihf hone.1) fun _ _ hf => P.bind (ihx hone.2) fun _ _ he => P.pure (.ap hf he)

variable (hk : h.Twin P L strict ctx k) (hc : ctx c d)
include hk hc

theorem Hooks.Twin.renewTy (owner owner' : Node) {e e' : Edited Ty} (he : e.Twin strict (Ty.Twin L) e') :
    P.rel (Edited.Twin strict (Ty.Twin L)) (h.renewTy c owner e) (k.renewTy d owner' e') := by
  obtain ⟨t, b⟩ := e
  obtain ⟨u, b'⟩ := e'
  cases he.value with
  | object hi hms =>
    exact P.bind (hk.newClassMembers _ _ hc hms) fun _ _ hr => P.pure (he.replace (hr.map (.object hi)))
  | _ => exact P.pure he

theorem Hooks.Twin.renewDecl (owner owner' : Node) (hx : x.Twin L y) {e e' : Edited Decl}
    (he : e.Twin strict (Decl.Twin L) e') :
    P.rel (Edited.Twin strict (Decl.Twin L)) (h.renewDecl c owner x e) (k.renewDecl d owner' y e') := by
  have hmems := P.bind (hk.newMembers owner owner' hc (he.value.members?.getD .nil)) fun _ _ hr =>
    P.pure (he.replace (he.value.withMembers? hr))
  have hclass := P.bind (hk.newClassMembers owner owner' hc (he.value.classMembers?.getD .nil))
    fun _ _ hr => P.pure (he.replace (he.value.withClassMembers? hr))
  cases hx with
  | space | module | augmentation | global => exact hmems
  | cls | iface => exact hclass
  | _ => exact P.pure he

/-- **Walks over twins go in step** if their hooks do. -/
theorem Kind.walk_twin {i : Kind} {a b : i.Of} (hab : i.Twin L a b) :
    P.rel (Edited.Twin strict (i.Twin L)) (i.walk h c a) (i.walk k d b) := by
  induction i, a using Kind.induct generalizing c d with
  | step i a ih =>
  have hparts : ∀ {c d}, ctx c d →
      P.rel (Edited.Twin strict (i.Twin L)) ((i.form a).walk h c) ((i.form b).walk k d) := fun hc =>
    Form.walk_twin hab.form (ih.mono fun _ _ h _ => h hc)
  cases i with
  | file =>
    have hin := hk.within hc (.file hab)
    simp only [walk, walkFile_eq, hk.idle.leaveFile, hk.idle'.leaveFile, Edited.thenStep_none]
    refine P.bind (hk.enterFile hin hab) fun p _ hp => hp ▸ ?_
    refine P.bind (hparts hin) fun e e' he => ?_
    refine P.bind (hk.newMembers _ _ hin he.value.members) fun _ _ hr => P.pure ?_
    have he := he.replace (hr.map (f := fun ds => { e.value with members := ds })
      (g := fun ds => { e'.value with members := ds }) fun hms => { he.value with members := hms })
    exact he.replace ((he.value.atPlace p).toOption (File.atPlace_changed _ p) (File.atPlace_changed _ p))
  | decl =>
    have hin := hk.within hc (.decl hab)
    simp only [walk, walkDecl_eq]
    refine P.bind (hk.enterDecl hin hab) fun p _ hp => hp ▸ ?_
    refine P.bind (hparts hin) fun _ _ he => ?_
    refine P.bind (hk.renewDecl hin _ _ hab he) fun _ _ he => ?_
    have he := he.replace ((he.value.atPlace p).toOption (Decl.atPlace_changed _ p) (Decl.atPlace_changed _ p))
    exact P.thenStep he (hk.leaveDecl hin he.value)
  | ty =>
    have hin := hk.within hc (.ty hab)
    simp only [walk, walkTy_eq, hk.idle.enterTy, hk.idle'.enterTy, Edited.renamed_none, pure_bind]
    refine P.bind (hparts hin) fun _ _ he => ?_
    exact P.bind (hk.renewTy hin _ _ he) fun _ _ he => P.thenStep he (hk.leaveTy hin he.value)
  | member | sig | param | tparam =>
    rw [hk.idle.walk_eq rfl rfl (by decide), hk.idle'.walk_eq rfl rfl (by decide)]
    exact hparts (hk.within hc (by constructor; exact hab))
  | expr =>
    simp only [walk, walkExpr_eq, hk.idle.enterExpr, hk.idle'.enterExpr, hk.idle.leaveExpr,
      hk.idle'.leaveExpr, Edited.thenStep_none, pure_bind, bind_pure]
    exact hparts hc

theorem walkFile_twin (hf : f.Twin L g) :
    P.rel (Edited.Twin strict (File.Twin L)) (walkFile h c f) (walkFile k d g) :=
  Kind.walk_twin hk hc (i := .file) hf

theorem walkTy_twin {t u : Ty} (ht : t.Twin L u) :
    P.rel (Edited.Twin strict (Ty.Twin L)) (walkTy h c t) (walkTy k d u) :=
  Kind.walk_twin hk hc (i := .ty) ht

theorem walkSig_twin {s r : Signature} (hs : s.Twin L r) :
    P.rel (Edited.Twin strict (Signature.Twin L)) (walkSig h c s) (walkSig k d r) :=
  Kind.walk_twin hk hc (i := .sig) hs

end

end Ambient
