import Ambient.Proofs.Outline
import Ambient.Proofs.Reachable

/-!
# Declarations that are exported where they stand

A walk comes to an exported declaration through its export, and a search finds it in the container around.
So one declaration has two scopes (`Root.Framed`), which searches take for different places. They make no
difference if nothing inside of such a declaration imports or exports names (`File.isTame`): the same classes
have constructors, and from the two scopes the same classes inherit some.
-/

namespace Ambient

/-! ## Where names are imported and exported -/

mutual

/-- Inside declarations that are exported where they stand, no import and no export of names stands. The
declaration is itself inside of one if `exported` says so. -/
def Decl.isTame (exported : Bool) : Decl → Bool
  | .space _ ds | .module _ ds | .augmentation _ ds | .global _ ds => Decl.areTame exported ds
  | .exports _ (.inline d) => d.isTame true
  | .exports _ (.names _ _) | .exports _ (.star _ _) | .imports _ => !exported
  | _ => true

def Decl.areTame (exported : Bool) : List Decl → Bool
  | [] => true
  | d :: ds => d.isTame exported && Decl.areTame exported ds

end

/-- No import and no export of names stands inside a declaration that is exported where it stands. -/
def File.isTame (f : File) : Bool := Decl.areTame false f.members

def Node.isTame (exported : Bool) : Node → Bool
  | .file f => Decl.areTame exported f.members
  | .decl d => d.isTame exported
  | _ => true

variable {exported : Bool} {d : Decl} {a b : Found} {ds : List Decl}

theorem Decl.isTame_of_mem (h : Decl.areTame exported ds = true) (hd : d ∈ ds) : d.isTame exported = true := by
  induction ds with
  | nil => cases hd
  | cons e ds ih =>
    simp only [Decl.areTame, Bool.and_eq_true] at h
    rcases List.mem_cons.1 hd with rfl | hd
    · exact h.1
    · exact ih h.2 hd

theorem Node.isTame_of_mem {n : Node} (h : n.isTame exported = true) (hds : n.members? = some ds)
    (hd : d ∈ ds) : d.isTame exported = true := by
  cases n with
  | file f =>
    cases hds
    exact Decl.isTame_of_mem h hd
  | decl e =>
    cases e with
    | space _ _ | module _ _ | augmentation _ _ | global _ _ =>
      cases hds
      exact Decl.isTame_of_mem h hd
    | _ => cases hds
  | _ => cases hds

/-! ## One declaration, two scopes -/

/-- The scopes are inside the same declaration of the file. The first may have come to exported declarations
through their exports. -/
inductive Root.Framed (root : Root) (f : File) : Scope → Scope → Prop
  | file : Framed root f ((Scope.ofRoot root).enter (.file f)) ((Scope.ofRoot root).enter (.file f))
  | member {w s : Scope} {d : Decl} (h : Framed root f w s) (hd : d ∈ w.members) :
    Framed root f (w.enter (.decl d)) (s.enter (.decl d))
  | exportee {w s : Scope} {x : ExportHead} {d : Decl} (h : Framed root f w s)
    (hd : .exports x (.inline d) ∈ w.members) : Framed root f (w.enter (.decl d)) (s.enter (.decl d))
  | inside {w s : Scope} {x : ExportHead} {d : Decl} (h : Framed root f w s)
    (hd : w.current? = some (.decl (.exports x (.inline d)))) :
    Framed root f (w.enter (.decl d)) (s.enter (.decl d))
  | framed {w s : Scope} {x : ExportHead} {d : Decl} (h : Framed root f w s)
    (hd : .exports x (.inline d) ∈ w.members) :
    Framed root f ((w.enter (.decl (.exports x (.inline d)))).enter (.decl d)) (s.enter (.decl d))

namespace Root.Framed

variable {root : Root} {f : File} {w s : Scope}

theorem current_eq (h : root.Framed f w s) : w.current? = s.current? := by
  cases h <;> rfl

theorem members_eq (h : root.Framed f w s) : w.members = s.members := by
  rw [Scope.members, Scope.members, h.current_eq]

theorem isContainer_eq (h : root.Framed f w s) : w.isContainer = s.isContainer := by
  rw [Scope.isContainer, Scope.isContainer, h.current_eq]

theorem root_eq (h : root.Framed f w s) : w.root = s.root := by
  induction h with
  | file => rfl
  | member _ _ ih | exportee _ _ ih | inside _ _ ih | framed _ _ ih => exact ih

theorem fileScope?_eq (h : root.Framed f w s) : w.fileScope? = s.fileScope? := by
  induction h with
  | file => rfl
  | member _ _ ih | exportee _ _ ih | inside _ _ ih | framed _ _ ih => exact ih

theorem enters (h : root.Framed f w s) : root.Enters f w ∧ root.Enters f s := by
  have hmemb : ∀ {s d}, root.Enters f s → d ∈ s.members → root.Enters f (s.enter (.decl d)) :=
    fun hs hd => .enter hs (.of_mem hd (Decl.mem_entries_self _))
  have hexpd : ∀ {s x d}, root.Enters f s → .exports x (.inline d) ∈ s.members →
      root.Enters f (s.enter (.decl d)) := fun hs hd => .enter hs (.of_mem hd (.tail _ (.head _)))
  induction h with
  | file => exact ⟨.file, .file⟩
  | member h hd ih => exact ⟨hmemb ih.1 hd, hmemb ih.2 (h.members_eq ▸ hd)⟩
  | exportee h hd ih => exact ⟨hexpd ih.1 hd, hexpd ih.2 (h.members_eq ▸ hd)⟩
  | inside h hd ih => exact ⟨ih.1.child hd (.head _), ih.2.child (h.current_eq ▸ hd) (.head _)⟩
  | framed h hd ih =>
    exact ⟨(hmemb ih.1 hd).child rfl (.head _), hexpd ih.2 (h.members_eq ▸ hd)⟩

theorem isAbstract_eq (h : root.Framed f w s) (q : QIdent) : w.isAbstract q = s.isAbstract q := by
  match q with
  | [] | _ :: _ :: _ => rfl
  | [x] =>
    induction h with
    | file => rfl
    | member _ _ ih | exportee _ _ ih | inside _ _ ih =>
      rw [Bool.eq_iff_iff, Scope.isAbstract_enter, Scope.isAbstract_enter, ih]
    | framed _ _ ih =>
      rw [Bool.eq_iff_iff, Scope.isAbstract_enter, Scope.isAbstract_enter, Scope.isAbstract_enter, ih]
      simp [Node.tparams, Decl.tparams, Node.typeKey?]

theorem containers (h : root.Framed f w s) : List.Forall₂ (root.Framed f)
    (w.outwards.filter Scope.isContainer) (s.outwards.filter Scope.isContainer) := by
  have hcons : ∀ {w s : Scope} {cs cs' : List Scope}, root.Framed f w s →
      List.Forall₂ (root.Framed f) (cs.filter Scope.isContainer) (cs'.filter Scope.isContainer) →
      List.Forall₂ (root.Framed f) ((w :: cs).filter Scope.isContainer) ((s :: cs').filter Scope.isContainer) := by
    intro w s cs cs' h hcs
    rw [List.filter_cons, List.filter_cons, h.isContainer_eq]
    split
    · exact .cons h hcs
    · exact hcs
  induction h with
  | file => exact .cons .file .nil
  | member h hd ih => exact hcons (.member h hd) ih
  | exportee h hd ih => exact hcons (.exportee h hd) ih
  | inside h hd ih => exact hcons (.inside h hd) ih
  | framed h hd ih => exact hcons (.framed h hd) ih

theorem isTame (hf : f.isTame = true) (h : root.Framed f w s) :
    ∃ exported n, w.current? = some n ∧ n.isTame exported = true ∧ (exported = true ∨ w = s) := by
  have hmemb : ∀ {w : Scope} {n : Node} {exported : Bool}, w.current? = some n → n.isTame exported = true →
      ∀ {d}, d ∈ w.members → d.isTame exported = true := by
    intro w n exported hn h d hd
    obtain ⟨n', ds, hn', hds, hd⟩ := Scope.mem_members.1 hd
    cases hn.symm.trans hn'
    exact Node.isTame_of_mem h hds hd
  induction h with
  | file => exact ⟨false, _, rfl, hf, .inr rfl⟩
  | member h hd ih =>
    obtain ⟨exported, n, hn, htame, hws⟩ := ih
    exact ⟨exported, _, rfl, hmemb hn htame hd, hws.imp_right fun h => by rw [h]⟩
  | exportee h hd ih | framed h hd ih =>
    obtain ⟨exported, n, hn, htame, hws⟩ := ih
    exact ⟨true, _, rfl, hmemb hn htame hd, .inl rfl⟩
  | inside h hd ih =>
    obtain ⟨exported, n, hn, htame, hws⟩ := ih
    cases hn.symm.trans hd
    exact ⟨true, _, rfl, htame, .inl rfl⟩

end Root.Framed

/-! ## Searches from the two scopes -/

/-- The declaration was found in two scopes of the same container. -/
inductive Found.Framed (root : Root) (f : File) : Found → Found → Prop
  | same (a : Found) : Found.Framed root f a a
  | member {w s : Scope} {d : Decl} (h : root.Framed f w s) (hd : d ∈ w.members) :
    Found.Framed root f ⟨d, w⟩ ⟨d, s⟩
  | exportee {w s : Scope} {x : ExportHead} {d : Decl} (h : root.Framed f w s)
    (hd : .exports x (.inline d) ∈ w.members) : Found.Framed root f ⟨d, w⟩ ⟨d, s⟩

/-- The questions are the same, or ask what an export that stands in both scopes makes visible. -/
inductive Question.Framed (root : Root) (f : File) :
    (q q' : Question) → (q.Answer → q'.Answer → Prop) → Prop
  | same {q : Question} {A : q.Answer → q.Answer → Prop} (hA : ∀ a, A a a) : Question.Framed root f q q A
  | exported {w s : Scope} {x : ExportHead} {d : Decl} (h : Found.Framed root f ⟨d, w⟩ ⟨d, s⟩) :
    Question.Framed root f (.exported w x (.inline d)) (.exported s x (.inline d))
      (List.Forall₂ (Binding.Like (Found.Framed root f)))

theorem Option.Rel.refl {α : Type} {R : α → α → Prop} (h : ∀ a, R a a) {o : Option α} : Option.Rel R o o := by
  cases o with
  | none => exact .none
  | some a => exact .some (h a)

section
variable {root : Root} {f : File} {w s : Scope}

theorem Found.Framed.decl_eq (h : Found.Framed root f a b) : a.decl = b.decl := by
  cases h <;> rfl

theorem Found.Framed.inner (h : Found.Framed root f a b) :
    a.inner = b.inner ∨ root.Framed f a.inner b.inner := by
  cases h with
  | same => exact .inl rfl
  | member h hd => exact .inr (.member h hd)
  | exportee h hd => exact .inr (.exportee h hd)

theorem Root.Framed.eq_of_binds (hf : f.isTame = true) (h : root.Framed f w s) (hd : d ∈ w.members)
    (hbinds : d.isTame true = false) : w = s := by
  obtain ⟨exported, n, hn, htame, hws⟩ := h.isTame hf
  refine hws.resolve_left ?_
  rintro rfl
  obtain ⟨n', ds, hn', hds, hd⟩ := Scope.mem_members.1 hd
  cases hn.symm.trans hn'
  cases hbinds.symm.trans (Node.isTame_of_mem htame hds hd)

variable (root) in
/-- The same declarations of a tame file, with and without the exports on the way to them. -/
def Root.tamed (hf : f.isTame = true) : Likeness where
  scope w s := w = s ∨ root.Framed f w s
  found := Found.Framed root f
  member w _ d e := d = e ∧ d ∈ w.members
  question := Question.Framed root f
  settled h q := by
    rcases h with rfl | h
    · rfl
    · rw [Scope.isSettled, Scope.isSettled, h.isAbstract_eq]
  containers h := by
    rcases h with rfl | h
    · exact List.forall₂_same.2 fun _ _ => .inl rfl
    · exact h.containers.imp fun _ _ => .inr
  file h := by
    have hfile : _ = _ := h.elim (congrArg Scope.fileScope?) Root.Framed.fileScope?_eq
    rw [hfile]
    exact Option.Rel.refl fun _ => .inl rfl
  dependencies h := by
    rw [Scope.dependencyScopes_congr (h.elim (congrArg Scope.root) Root.Framed.root_eq), List.forall₂_same]
    exact fun _ _ => .inl rfl
  library {w s} h x := by
    have hroot : w.root = s.root := h.elim (congrArg Scope.root) Root.Framed.root_eq
    have hmodules : w.libraryModules x = s.libraryModules x := by
      simp only [Scope.libraryModules, Scope.dependencyRoot?, hroot]
    rw [hmodules, List.forall₂_same]
    exact fun a _ => .same a
  members {w s} h := by
    have hmembers : w.members = s.members := h.elim (congrArg Scope.members) Root.Framed.members_eq
    rw [← hmembers, List.forall₂_same]
    exact fun d hd => ⟨rfl, hd⟩
  memberKin h := h.1 ▸ Decl.kin_of_outline _ rfl
  here h hd := by
    obtain ⟨rfl, hd⟩ := hd
    rcases h with rfl | h
    · exact .same _
    · exact .member h hd
  exportee h hd := by
    obtain ⟨heq, hd⟩ := hd
    cases heq
    rcases h with rfl | h
    · exact .same _
    · exact .exportee h hd
  foundKin h := h.decl_eq ▸ Decl.kin_of_outline _ rfl
  inner h := h.inner
  imported {w s i j} h hd := by
    obtain ⟨heq, hd⟩ := hd
    cases heq
    obtain rfl : w = s := h.elim id fun h => h.eq_of_binds hf hd rfl
    exact .same fun bs => List.forall₂_same.2 fun _ _ => ⟨rfl, .same _⟩
  exported {w s x y a b} h hd := by
    obtain ⟨heq, hd⟩ := hd
    cases heq
    cases a with
    | inline d =>
      refine .exported ?_
      rcases h with rfl | h
      · exact .same _
      · exact .exportee h hd
    | _ =>
      obtain rfl : w = s := h.elim id fun h => h.eq_of_binds hf hd rfl
      exact .same fun bs => List.forall₂_same.2 fun _ _ => ⟨rfl, .same _⟩

theorem Question.Framed.answerOn {q q' : Question} {A : q.Answer → q'.Answer → Prop}
    (h : Question.Framed root f q q' A) (n : Nat) : Option.Rel A (answerOn n [] q) (answerOn n [] q') := by
  cases h with
  | same hA => exact Option.Rel.refl hA
  | @exported w s x d h =>
    cases n with
    | zero => exact .none
    | succ n =>
      have hopen : ∀ {q : Question}, ¬ q.CutOn [] := fun ⟨_, _, hmem⟩ => List.not_mem_nil hmem
      rw [answerOn_open hopen, answerOn_open hopen]
      refine .some (Option.Rel.toList ?_)
      generalize (if x.kind = .defaulted then some Ident.defaultExport else d.name?) = y
      cases y with
      | none => exact .none
      | some y => exact .some ⟨rfl, h⟩

/-- **From the two scopes inside a class, names denote the same.** -/
theorem Root.Framed.denotes (hf : f.isTame = true) (hnum : root.Numbered f) (h : root.Framed f w s)
    (hcont : w.isContainer = false) (q : QIdent) :
    List.Forall₂ (Found.Framed root f) (w.denotes .classes q) (s.denotes .classes q) := by
  let n := max (w.searchBound 1) (s.searchBound 1)
  have hsrch := (root.tamed hf).nameSearch (p := .classes)
    (fun hab => congrArg Decl.isClass hab.decl_eq) (.inr h) q
  have hrun := hsrch.run .ofOption fun hq => hq.answerOn n
  obtain ⟨hw, hs⟩ := h.enters
  rw [hnum.territory.run_denotes hw hcont .classes q (Nat.le_max_left _ _),
    hnum.territory.run_denotes hs (h.isContainer_eq ▸ hcont) .classes q (Nat.le_max_right _ _)] at hrun
  cases hrun with
  | some h => exact h

/-! ## Constructors from the two scopes -/

section
variable (hf : f.isTame = true) (hnum : root.Numbered f)
include hf hnum

theorem Root.Framed.parents (h : root.Framed f w s) (hcont : w.isContainer = false) (c : ClassDecl) :
    ParentsIn (Found.Framed root f) w c s c :=
  fun _ _ _ hpar => ⟨⟨_, _, hpar⟩, h.denotes hf hnum hcont _⟩

theorem Found.Framed.parents (h : Found.Framed root f a b) {c : ClassDecl} (hc : a.decl = .cls c) :
    ParentsIn (Found.Framed root f) a.inner c b.inner c := by
  rcases h.inner with heq | hinner
  · exact fun _ _ _ hpar => ⟨⟨_, _, hpar⟩, heq ▸ List.forall₂_same.2 fun a _ => .same a⟩
  · have hcont : a.inner.isContainer = false := by
      rw [Found.inner, hc]
      rfl
    exact hinner.parents hf hnum hcont c

/-- **In both scopes the class has constructors or none.** -/
theorem Found.Framed.hasCtors_iff (h : Found.Framed root f a b) : a.HasCtors ↔ b.HasCtors := by
  constructor
  · refine fun hctors => hctors.transfer (fun hab hc hown => ?_) (fun hab hc => ?_) h
    · exact .own (hab.decl_eq ▸ hc) hown
    · exact ⟨_, hab.decl_eq ▸ hc, hab.parents hf hnum hc⟩
  · refine fun hctors => hctors.transfer (R := flip (Found.Framed root f)) (fun hab hc hown => ?_)
      (fun {b a c} hab hc => ?_) h
    · exact .own (hab.decl_eq ▸ hc) hown
    · have hc' : a.decl = .cls c := hab.decl_eq ▸ hc
      exact ⟨c, hc', fun i q targs hpar => (hab.parents hf hnum hc' i q targs hpar).imp_right .flip⟩

/-- **From both scopes the class inherits constructors or none.** -/
theorem Root.Framed.inherits_iff (h : root.Framed f w s) (hcont : w.isContainer = false) (c : ClassDecl) :
    w.Inherits c ↔ s.Inherits c := by
  have hpars := h.parents hf hnum hcont c
  constructor
  · exact fun hw => hw.transfer (fun hab => (hab.hasCtors_iff hf hnum).1) hpars
  · exact fun hs => hs.transfer (R := flip (Found.Framed root f)) (fun hab => (hab.hasCtors_iff hf hnum).2)
      fun i q targs hpar => (hpars i q targs hpar).imp_right .flip

end

end

end Ambient
