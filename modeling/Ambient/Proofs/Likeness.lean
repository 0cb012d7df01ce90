import Ambient.Proofs.Declared
import Ambient.Proofs.Twin.Step

/-!
# Searches for names in step

A search for a name looks at the kinds and names of declarations, at what imports and exports say, and at
nothing else. So from two places that see declarations of the same kinds and names it goes in step. A
`Likeness` says which scopes, declarations and questions correspond to each other.

* `Search.InStep`: two searches that ask questions which correspond, and find results which correspond if
  the answers do.
* `Likeness.nameSearch`, `Likeness.importSearch`, `Likeness.exportSearch`: the searches for names and for
  what imports and exports bind are in step.
-/

namespace Ambient

/-! ## Searches in step -/

section
variable {m n : Type → Type} [Monad m] [Monad n] [LawfulMonad m] [LawfulMonad n] (P : Pairing m n)
  {α β γ δ : Type} {R : α → β → Prop} {S : γ → δ → Prop} {as : List α} {bs : List β}

theorem Pairing.concatMapM {f : α → m (List γ)} {g : β → n (List δ)} (h : List.Forall₂ R as bs)
    (hfg : ∀ {a b}, R a b → P.rel (List.Forall₂ S) (f a) (g b)) :
    P.rel (List.Forall₂ S) (Ambient.concatMapM f as) (Ambient.concatMapM g bs) := by
  induction h with
  | nil => exact P.pure .nil
  | cons hab _ ih =>
    exact P.bind (hfg hab) fun _ _ hc => P.bind ih fun _ _ hcs => P.pure (hc.append hcs)

theorem Pairing.firstNonempty {f : α → m (List γ)} {g : β → n (List δ)} (h : List.Forall₂ R as bs)
    (hfg : ∀ {a b}, R a b → P.rel (List.Forall₂ S) (f a) (g b)) :
    P.rel (List.Forall₂ S) (Ambient.firstNonempty f as) (Ambient.firstNonempty g bs) := by
  induction h with
  | nil => exact P.pure .nil
  | cons hab _ ih =>
    refine P.bind (hfg hab) fun cs ds hc => ?_
    cases hc with
    | nil => exact ih
    | cons hc hcs => exact P.pure (.cons hc hcs)

theorem Pairing.orElse {x : m (List α)} {y : n (List β)} {f : List α → m (List α)}
    {g : List β → n (List β)} (hx : P.rel (List.Forall₂ R) x y)
    (hfg : ∀ as bs, List.Forall₂ R as bs → P.rel (List.Forall₂ R) (f as) (g bs)) :
    P.rel (List.Forall₂ R) (x >>= fun as => if !as.isEmpty then Pure.pure as else f as)
      (y >>= fun bs => if !bs.isEmpty then Pure.pure bs else g bs) := by
  refine P.bind hx fun as bs h => ?_
  rw [h.isEmpty_eq]
  split
  · exact P.pure h
  · exact hfg as bs h

end

/-- The searches ask questions that correspond, and give results that `R` relates if the answers do. The
relation that comes with two questions says when answers to them correspond. -/
inductive Search.InStep (Q : (q q' : Question) → (q.Answer → q'.Answer → Prop) → Prop) {α β : Type}
    (R : α → β → Prop) : Search α → Search β → Prop
  | done {a : α} {b : β} (h : R a b) : Search.InStep Q R (.done a) (.done b)
  | ask {q q' : Question} {A : q.Answer → q'.Answer → Prop} {next : q.Answer → Search α}
    {next' : q'.Answer → Search β} (hq : Q q q' A)
    (h : ∀ a b, A a b → Search.InStep Q R (next a) (next' b)) :
    Search.InStep Q R (.ask q next) (.ask q' next')

namespace Search

variable {Q : (q q' : Question) → (q.Answer → q'.Answer → Prop) → Prop}

theorem InStep.bind {α β γ δ : Type} {R : α → β → Prop} {S : γ → δ → Prop} {x : Search α} {y : Search β}
    {f : α → Search γ} {g : β → Search δ} (hx : InStep Q R x y) (hf : ∀ a b, R a b → InStep Q S (f a) (g b)) :
    InStep Q S (x >>= f) (y >>= g) := by
  induction hx with
  | done h => exact hf _ _ h
  | ask hq _ ih => exact .ask hq ih

def stepwise (Q : (q q' : Question) → (q.Answer → q'.Answer → Prop) → Prop) : Pairing Search Search where
  rel := Search.InStep Q
  pure := .done
  bind := .bind

theorem InStep.about {q q' : Question} {A : q.Answer → q'.Answer → Prop} (hq : Q q q' A) :
    InStep Q A (Search.about q) (Search.about q') :=
  .ask hq fun _ _ h => .done h

theorem InStep.run {m n : Type → Type} [Monad m] [Monad n] [LawfulMonad m] [LawfulMonad n]
    (P : Pairing m n) {answer : (q : Question) → m q.Answer} {answer' : (q : Question) → n q.Answer}
    (hans : ∀ {q q' : Question} {A : q.Answer → q'.Answer → Prop}, Q q q' A →
      P.rel A (answer q) (answer' q'))
    {α β : Type} {R : α → β → Prop} {x : Search α} {y : Search β} (h : x.InStep Q R y) :
    P.rel R (x.run answer) (y.run answer') := by
  induction h with
  | done hab => exact P.pure hab
  | ask hq _ ih => exact P.bind (hans hq) ih

end Search

/-! ## Declarations of one kind and name -/

mutual

/-- The declarations are of one kind and name, as far as searches for names see. -/
inductive Decl.Kin : Decl → Decl → Prop
  | space {h g : SpaceHead} {ms ns : List Decl} (hname : h.name = g.name) : Decl.Kin (.space h ms) (.space g ns)
  | module {h g : SpaceHead} {ms ns : List Decl} (hname : h.name = g.name) :
    Decl.Kin (.module h ms) (.module g ns)
  | augmentation {h g : AugmentHead} {ms ns : List Decl} (hname : h.name = g.name) :
    Decl.Kin (.augmentation h ms) (.augmentation g ns)
  | global {h g : GlobalHead} {ms ns : List Decl} : Decl.Kin (.global h ms) (.global g ns)
  | cls {c d : ClassDecl} (hname : c.name = d.name) : Decl.Kin (.cls c) (.cls d)
  | iface {i j : InterfaceDecl} (hname : i.name = j.name) : Decl.Kin (.iface i) (.iface j)
  | enum {e f : EnumDecl} (hname : e.name = f.name) : Decl.Kin (.enum e) (.enum f)
  | var {v w : VarDecl} (hname : v.name = w.name) : Decl.Kin (.var v) (.var w)
  | function {f g : FunctionDecl} (hname : f.name = g.name) : Decl.Kin (.function f) (.function g)
  | typeAlias {a b : AliasDecl} (hname : a.name = b.name) : Decl.Kin (.typeAlias a) (.typeAlias b)
  | imports {i j : ImportDecl} (hsource : i.source = j.source) (himported : i.imported = j.imported) :
    Decl.Kin (.imports i) (.imports j)
  | exports {h g : ExportHead} {a b : Exportee} (hkind : h.kind = g.kind) (he : Exportee.Kin a b) :
    Decl.Kin (.exports h a) (.exports g b)
  | exportAs {e f : NamespaceExport} : Decl.Kin (.exportAs e) (.exportAs f)

/-- The exports make the same names visible, or declarations of one kind and name. -/
inductive Exportee.Kin : Exportee → Exportee → Prop
  | names {xs : List (QIdent × Option Ident)} {s : Option Ident} : Exportee.Kin (.names xs s) (.names xs s)
  | inline {d e : Decl} (hd : Decl.Kin d e) : Exportee.Kin (.inline d) (.inline e)
  | star {x : Option Ident} {s : Ident} : Exportee.Kin (.star x s) (.star x s)

end

namespace Decl.Kin

variable {d e : Decl}

theorem name?_eq (h : d.Kin e) : d.name? = e.name? := by
  cases h with
  | global | imports | exports | exportAs => rfl
  | _ hname => exact congrArg some hname

theorem ownName?_eq (h : d.Kin e) : d.ownName? = e.ownName? := by
  have hname := h.name?_eq
  cases h with
  | module | augmentation => rfl
  | _ => exact hname

theorem unwrapExport (h : d.Kin e) : d.unwrapExport.Kin e.unwrapExport := by
  have hde := h
  cases h with
  | exports _ he =>
    cases he with
    | inline hd => exact hd
    | _ => exact hde
  | _ => exact hde

theorem localName?_eq (h : d.Kin e) : d.localName? = e.localName? :=
  h.unwrapExport.ownName?_eq

theorem isClass_eq (h : d.Kin e) : d.isClass = e.isClass := by
  cases h <;> rfl

end Decl.Kin

/-! ## What corresponds to each other -/

/-- The bindings bind one name to declarations that correspond. -/
structure Binding.Like (R : Found → Found → Prop) (b c : Binding) : Prop where
  name : b.name = c.name
  found : R b.found c.found

/-- The dependency of that name seen as a module. -/
def Scope.libraryModules (s : Scope) (x : Ident) : List Found :=
  (s.root.deps.find? x).toList.flatMap fun d => (s.dependencyRoot? x).toList.map fun r => ⟨d.module, r⟩

/-- Which scopes, declarations and questions correspond to each other. Scopes that do are surrounded by
such, and declarations that do are of one kind and name. -/
structure Likeness where
  scope : Scope → Scope → Prop
  found : Found → Found → Prop
  /-- The first declaration is in the container of the first scope what the second is in that of the
  second. -/
  member : Scope → Scope → Decl → Decl → Prop
  question : (q q' : Question) → (q.Answer → q'.Answer → Prop) → Prop
  settled : ∀ {s t : Scope}, scope s t → ∀ q, s.isSettled q = t.isSettled q
  containers : ∀ {s t : Scope}, scope s t →
    List.Forall₂ scope (s.outwards.filter Scope.isContainer) (t.outwards.filter Scope.isContainer)
  file : ∀ {s t : Scope}, scope s t → Option.Rel scope s.fileScope? t.fileScope?
  dependencies : ∀ {s t : Scope}, scope s t → List.Forall₂ scope s.dependencyScopes t.dependencyScopes
  library : ∀ {s t : Scope}, scope s t → ∀ x, List.Forall₂ found (s.libraryModules x) (t.libraryModules x)
  members : ∀ {s t : Scope}, scope s t → List.Forall₂ (member s t) s.members t.members
  memberKin : ∀ {s t : Scope} {d e : Decl}, member s t d e → d.Kin e
  here : ∀ {s t : Scope} {d e : Decl}, scope s t → member s t d e → found ⟨d, s⟩ ⟨e, t⟩
  exportee : ∀ {s t : Scope} {x y : ExportHead} {d e : Decl}, scope s t →
    member s t (.exports x (.inline d)) (.exports y (.inline e)) → found ⟨d, s⟩ ⟨e, t⟩
  foundKin : ∀ {f g : Found}, found f g → f.decl.Kin g.decl
  inner : ∀ {f g : Found}, found f g → scope f.inner g.inner
  imported : ∀ {s t : Scope} {i j : ImportDecl}, scope s t → member s t (.imports i) (.imports j) →
    question (.imported s i) (.imported t j) (List.Forall₂ (Binding.Like found))
  exported : ∀ {s t : Scope} {x y : ExportHead} {a b : Exportee}, scope s t →
    member s t (.exports x a) (.exports y b) →
      question (.exported s x a) (.exported t y b) (List.Forall₂ (Binding.Like found))

namespace Likeness

variable (K : Likeness) {s t : Scope}

abbrev Finds : Search (List Found) → Search (List Found) → Prop :=
  Search.InStep K.question (List.Forall₂ K.found)

abbrev Binds : Search (List Binding) → Search (List Binding) → Prop :=
  Search.InStep K.question (List.Forall₂ (Binding.Like K.found))

/-! ## Modules and augmentations -/

theorem modulesNamed (hs : K.scope s t) (x : Ident) :
    List.Forall₂ K.found (s.modulesNamed x) (t.modulesNamed x) := by
  refine List.rel_filterMap (fun d e hde => ?_) (K.members hs)
  have hfound := K.here hs hde
  cases K.memberKin hde with
  | module hname =>
    simp only [hname]
    split
    · exact .some hfound
    · exact .none
  | _ => exact .none

theorem moduleScopes (hs : K.scope s t) (x : Ident) :
    List.Forall₂ K.found (s.moduleScopes x) (t.moduleScopes x) := by
  refine List.Forall₂.append ?_ (K.library hs x)
  exact List.rel_flatMap ((K.file hs).toList.append (K.dependencies hs)) fun _ _ hs =>
    K.modulesNamed hs x

theorem augmentations (hs : K.scope s t) : List.Forall₂ K.found s.augmentations t.augmentations := by
  refine List.rel_flatMap (K.file hs).toList fun file file' hfile => ?_
  refine List.rel_flatMap (K.members hfile) fun d e hde => ?_
  have hfound := K.here hfile hde
  cases K.memberKin hde with
  | augmentation => exact .cons hfound .nil
  | module =>
    have hin := K.inner hfound
    refine List.rel_filterMap (fun d e hde => ?_) (K.members hin)
    have hfound := K.here hin hde
    cases K.memberKin hde with
    | augmentation => exact .some hfound
    | _ => exact .none
  | _ => exact .nil

/-! ## Bindings -/

theorem bindingsOf {bs cs : List Binding} (h : List.Forall₂ (Binding.Like K.found) bs cs) (x : Ident) :
    List.Forall₂ K.found (Ambient.bindingsOf x bs) (Ambient.bindingsOf x cs) :=
  List.rel_map (fun _ _ hb => hb.found) (h.filter fun hb => by rw [hb.name])

theorem bindAll {fs gs : List Found} (h : List.Forall₂ K.found fs gs) (x : Ident) :
    List.Forall₂ (Binding.Like K.found) (Ambient.bindAll x fs) (Ambient.bindAll x gs) :=
  List.rel_map (fun _ _ hf => ⟨rfl, hf⟩) h

theorem rebind {bs cs : List Binding} (h : List.Forall₂ (Binding.Like K.found) bs cs) (x y : Ident) :
    List.Forall₂ (Binding.Like K.found) (Ambient.rebind x y bs) (Ambient.rebind x y cs) :=
  K.bindAll (K.bindingsOf h x) y

/-! ## Names -/

theorem findIn_other (x : Ident) (hs : K.scope s t) {d e : Decl} (h : K.member s t d e)
    (hg : ∀ h ms, d ≠ .global h ms) (hg' : ∀ h ms, e ≠ .global h ms) (hi : ∀ i, d ≠ .imports i)
    (hi' : ∀ i, e ≠ .imports i) : K.Finds (Ambient.findIn x s d) (Ambient.findIn x t e) := by
  have hunw : K.found ⟨d.unwrapExport, s⟩ ⟨e.unwrapExport, t⟩ := by
    have hfound := K.here hs h
    cases K.memberKin h with
    | exports _ he =>
      cases he with
      | inline => exact K.exportee hs h
      | _ => exact hfound
    | _ => exact hfound
  rw [findIn_eq x s hg hi, findIn_eq x t hg' hi', (K.memberKin h).localName?_eq]
  refine .done ?_
  split
  · exact .cons hunw .nil
  · exact .nil

mutual

theorem findIn (x : Ident) (d : Decl) {e : Decl} {s t : Scope} (hs : K.scope s t)
    (h : K.member s t d e) : K.Finds (Ambient.findIn x s d) (Ambient.findIn x t e) := by
  cases d with
  | global g ms =>
    have ih := @findInList x ms
    have hinner := K.inner (K.here hs h)
    cases K.memberKin h with | global => exact ih hinner (K.members hinner)
  | imports i =>
    cases K.memberKin h with | imports =>
      exact .bind (.about (K.imported hs h)) fun _ _ hbs =>
        .done (K.bindingsOf hbs x)
  | _ => cases K.memberKin h; exact K.findIn_other x hs h nofun nofun nofun nofun
termination_by structural d

theorem findInList (x : Ident) (ds : List Decl) {es : List Decl} {s t : Scope} (hs : K.scope s t)
    (h : List.Forall₂ (K.member s t) ds es) : K.Finds (Ambient.findInList x s ds) (Ambient.findInList x t es) := by
  cases ds with
  | nil => cases h; exact .done .nil
  | cons d ds =>
    have ih₁ := @findIn x d
    have ih₂ := @findInList x ds
    cases h with | cons hd hds =>
      refine .bind (ih₁ hs hd) fun _ _ hfs => ?_
      exact .bind (ih₂ hs hds) fun _ _ hgs => .done (hfs.append hgs)
termination_by structural ds

end

theorem findMember (hs : K.scope s t) (x : Ident) : K.Finds (Ambient.findMember s x) (Ambient.findMember t x) :=
  K.findInList x _ hs (K.members hs)

theorem exportedFrom (hs : K.scope s t) {d e : Decl} (h : K.member s t d e) :
    K.Binds (Ambient.exportedFrom s d) (Ambient.exportedFrom t e) := by
  have hfound := K.here hs h
  have hkin := K.memberKin h
  have hnamed : K.Binds (pure (d.name?.map fun x => ⟨x, ⟨d, s⟩⟩).toList)
      (pure (e.name?.map fun x => ⟨x, ⟨e, t⟩⟩).toList) := by
    rw [hkin.name?_eq]
    refine .done (Option.Rel.toList ?_)
    cases e.name? with
    | none => exact .none
    | some x => exact .some ⟨rfl, hfound⟩
  cases hkin with
  | exports => exact Search.InStep.about (Q := K.question) (K.exported hs h)
  | imports | global | exportAs | module | augmentation => exact .done .nil
  | _ => exact hnamed

theorem exportedBy (hs : K.scope s t) : K.Binds (Ambient.exportedBy s) (Ambient.exportedBy t) :=
  (Search.stepwise K.question).concatMapM (K.members hs) (K.exportedFrom hs)

section
variable {p : Picker} (hp : ∀ {f g : Found}, K.found f g → p.pick f.decl = p.pick g.decl)
include hp

theorem resolveTail (tail : List Ident) {fs gs : List Found} (h : List.Forall₂ K.found fs gs) :
    K.Finds (Ambient.resolveTail p tail fs) (Ambient.resolveTail p tail gs) := by
  induction tail generalizing fs gs with
  | nil => exact .done (h.filter hp)
  | cons x rest ih =>
    refine (Search.stepwise K.question).concatMapM h fun {f g} hf => ?_
    have hinner : K.Finds
        (Ambient.exportedBy f.inner >>= fun bs => Ambient.resolveTail p rest (Ambient.bindingsOf x bs))
        (Ambient.exportedBy g.inner >>= fun bs => Ambient.resolveTail p rest (Ambient.bindingsOf x bs)) :=
      .bind (K.exportedBy (K.inner hf)) fun _ _ hbs =>
        ih (K.bindingsOf hbs x)
    have hpick := hp hf
    have hkin := K.foundKin hf
    obtain ⟨d, s⟩ := f
    obtain ⟨e, t⟩ := g
    cases hkin with
    | enum =>
      refine .done ?_
      simp only at hpick ⊢
      rw [hpick]
      split
      · exact .cons hf .nil
      · exact .nil
    | _ => exact hinner

theorem lookupInside (head : Ident) (tail : List Ident) {s t : Scope} (hs : K.scope s t) :
    K.Finds (Ambient.lookupInside p head tail s) (Ambient.lookupInside p head tail t) :=
  .bind (K.findMember hs head) fun _ _ hfs => K.resolveTail hp tail hfs

theorem lookupThrough (hs : K.scope s t) (head : Ident) (tail : List Ident) :
    K.Finds (Ambient.lookupThrough p s head tail) (Ambient.lookupThrough p t head tail) := by
  let P := Search.stepwise K.question
  refine P.orElse (P.firstNonempty (K.containers hs) (K.lookupInside hp head tail)) fun _ _ _ => ?_
  refine P.orElse (P.concatMapM (K.moduleScopes hs head) fun hf =>
    K.resolveTail hp tail (.cons hf .nil)) fun _ _ _ => ?_
  refine P.orElse (P.concatMapM (K.augmentations hs) fun hf =>
    K.lookupInside hp head tail (K.inner hf)) fun _ _ _ => ?_
  exact P.concatMapM (K.dependencies hs) (K.lookupInside hp head tail)

/-- **Names are looked up in step.** -/
theorem nameSearch (hs : K.scope s t) (q : QIdent) : K.Finds (Ambient.nameSearch p s q) (Ambient.nameSearch p t q) := by
  cases q with
  | nil => exact .done .nil
  | cons head tail =>
    rw [Ambient.nameSearch, Ambient.nameSearch, K.settled hs]
    split
    · exact .done .nil
    · exact K.lookupThrough hp hs head tail

end

/-! ## Imports and exports -/

theorem importForms {plain plain' : Ident → Search (List Binding)} {fs gs : List Found}
    (hplain : ∀ x, K.Binds (plain x) (plain' x)) (h : List.Forall₂ K.found fs gs) (is : List Imported) :
    K.Binds (Ambient.importForms plain fs is) (Ambient.importForms plain' gs is) := by
  let P := Search.stepwise K.question
  refine P.concatMapM (R := Eq) (List.forall₂_refl is) fun {i j} hij => ?_
  subst hij
  match i with
  | .name x => exact hplain x
  | .star (some x) => exact .done (K.bindAll h x)
  | .star none => exact .done .nil
  | .destructured xs =>
    refine P.concatMapM h fun hf => P.bind (K.exportedBy (K.inner hf)) fun _ _ hbs => .done ?_
    exact List.rel_flatMap (R := Eq) (List.forall₂_refl xs) fun x _ hx => hx ▸ K.rebind hbs x.1 _

section
variable (hname : ∀ {s t : Scope}, K.scope s t → ∀ q,
  K.question (.name .all s q) (.name .all t q) (List.Forall₂ K.found))
include hname

/-- **What imports bind is looked up in step.** -/
theorem importSearch (hs : K.scope s t) {i j : ImportDecl} (hsrc : i.source = j.source)
    (himp : i.imported = j.imported) : K.Binds (Ambient.importSearch s i) (Ambient.importSearch t j) := by
  let P := Search.stepwise K.question
  rw [Ambient.importSearch, Ambient.importSearch, hsrc, himp]
  cases j.source with
  | inner target =>
    refine P.concatMapM (R := Eq) (List.forall₂_refl _) fun {i j} hij => ?_
    subst hij
    match i with
    | .name x => exact P.bind (.about (hname hs target)) fun _ _ hfs => .done (K.bindAll hfs x)
    | .star _ | .destructured _ => exact .done .nil
  | required module =>
    have hmods := K.moduleScopes hs module
    exact K.importForms (fun x => .done (K.bindAll hmods x)) hmods _
  | module module =>
    have hmods := K.moduleScopes hs module
    refine K.importForms (fun x => P.concatMapM hmods fun hf => ?_) hmods _
    exact P.bind (K.exportedBy (K.inner hf)) fun _ _ hbs => .done (K.rebind hbs _ x)

/-- **What exports bind is looked up in step.** -/
theorem exportSearch (hs : K.scope s t) {h g : ExportHead} (hkind : h.kind = g.kind) {a b : Exportee}
    (hab : a.Kin b)
    (hinl : ∀ {d e : Decl}, a = .inline d → b = .inline e → K.found ⟨d, s⟩ ⟨e, t⟩) :
    K.Binds (Ambient.exportSearch s h a) (Ambient.exportSearch t g b) := by
  let P := Search.stepwise K.question
  match hab with
  | @Exportee.Kin.inline d e hd =>
    rw [Ambient.exportSearch, Ambient.exportSearch, hkind, hd.name?_eq]
    refine .done (Option.Rel.toList ?_)
    generalize (if g.kind = .defaulted then some Ident.defaultExport else e.name?) = x
    cases x with
    | none => exact .none
    | some x => exact .some ⟨rfl, hinl rfl rfl⟩
  | @Exportee.Kin.names xs none =>
    refine P.concatMapM (R := Eq) (List.forall₂_refl _) fun {x y} hxy => ?_
    subst hxy
    refine P.bind (.about (hname hs x.1)) fun _ _ hfs => ?_
    rw [hkind]
    cases g.kind with
    | namespaced =>
      refine P.concatMapM hfs fun hf => ?_
      exact P.bind (K.exportedBy (K.inner hf)) fun _ _ hbs => .done (hbs.append (.cons ⟨rfl, hf⟩ .nil))
    | defaulted => exact .done (K.bindAll hfs _)
    | named =>
      simp only
      cases x.2.or x.1.getLast? with
      | none => exact .done .nil
      | some y => exact .done (K.bindAll hfs y)
  | @Exportee.Kin.names xs (some module) =>
    refine P.concatMapM (K.moduleScopes hs module) fun hf => ?_
    refine P.bind (K.exportedBy (K.inner hf)) fun _ _ hbs => .done ?_
    refine List.rel_flatMap (R := Eq) (List.forall₂_refl _) fun x y hxy => ?_
    subst hxy
    simp only
    cases x.1.getLast? with
    | none => exact .nil
    | some y => exact K.rebind hbs y _
  | @Exportee.Kin.star (some x) module => exact .done (K.bindAll (K.moduleScopes hs module) x)
  | @Exportee.Kin.star none module =>
    refine P.concatMapM (K.moduleScopes hs module) fun hf => ?_
    exact P.bind (K.exportedBy (K.inner hf)) fun _ _ hbs => .done (hbs.filter fun hb => by rw [hb.name])

end

end Likeness

end Ambient
