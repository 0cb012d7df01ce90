import Ambient.Proofs.Likeness
import Ambient.Proofs.Twin.Scope
import Ambient.Proofs.Twin.Walk

/-!
# Searching twins

A search asks twin questions in twin scopes. If the answers are twins it goes on in step and finds twins
(`Question.Twin.search`). This is shown for each kind of search, whatever answers the questions.

* `Question.Twin L q q' A`: the questions are about twins, and `A` says when answers to them are twins.
* `Search.Twin L R`: the searches ask twin questions, and end with results that `R` relates if the
  answers are twins.
-/

namespace Ambient

/-! ## Questions and searches -/

/-- The declarations that were found are twins, in twin scopes. -/
structure Found.Twin (L : Leeway) (f g : Found) : Prop where
  decl : f.decl.Twin L g.decl
  scope : f.scope.Twin L g.scope

abbrev Binding.Twin (L : Leeway) : Binding → Binding → Prop :=
  Binding.Like (Found.Twin L)

structure Contribution.Twin (L : Leeway) (c d : Contribution) : Prop where
  resolved : c.resolved = d.resolved
  own : List.Forall₂ (Member.Twin L) c.own d.own
  inherited : List.Forall₂ (Member.Twin L) c.inherited d.inherited

/-- The picker does not tell twins apart. -/
def Picker.Blind (L : Leeway) (p : Picker) : Prop :=
  ∀ {d e : Decl}, d.Twin L e → p.pick d = p.pick e

/-- The questions are about twins. The relation says when answers to them are twins. -/
inductive Question.Twin (L : Leeway) :
    (q q' : Question) → (q.Answer → q'.Answer → Prop) → Prop
  | name {p : Picker} {s s' : Scope} {q : QIdent} (hp : p.Blind L) (hs : s.Twin L s') :
    Question.Twin L (.name p s q) (.name p s' q) (List.Forall₂ (Found.Twin L))
  | imported {s s' : Scope} {i j : ImportDecl} (hs : s.Twin L s') (hi : i.Twin L j) :
    Question.Twin L (.imported s i) (.imported s' j) (List.Forall₂ (Binding.Twin L))
  | exported {s s' : Scope} {h h' : ExportHead} {e e' : Exportee} (hs : s.Twin L s')
    (hh : h.Twin L h') (he : e.Twin L e') :
    Question.Twin L (.exported s h e) (.exported s' h' e') (List.Forall₂ (Binding.Twin L))
  | members {s s' : Scope} {q : QIdent} (hs : s.Twin L s') :
    Question.Twin L (.members s q) (.members s' q) (Option.Rel (List.Forall₂ (Member.Twin L)))
  | contribution {f g : Found} (hf : f.Twin L g) :
    Question.Twin L (.contribution f) (.contribution g) (List.Forall₂ (Contribution.Twin L))
  | keys {s s' : Scope} {t u : Ty} (hs : s.Twin L s') (ht : t.Twin L u) :
    Question.Twin L (.keys s t) (.keys s' u) Eq
  | aliasKeys {f g : Found} {t u : Ty} (hf : f.Twin L g) (ht : t.Twin L u) :
    Question.Twin L (.aliasKeys f t) (.aliasKeys g u) Eq
  | ctors {s s' : Scope} {q : QIdent} {ts us : List Ty} (hs : s.Twin L s')
    (hts : List.Forall₂ (Ty.Twin L) ts us) :
    Question.Twin L (.ctors s q ts) (.ctors s' q us) (List.Forall₂ (Member.Twin L))
  | ctorsOf {f g : Found} {c d : ClassDecl} (hf : f.Twin L g) (hc : c.Twin L d) :
    Question.Twin L (.ctorsOf f c) (.ctorsOf g d) (List.Forall₂ (Member.Twin L))

/-- The searches ask twin questions, and give results that `R` relates if the answers are twins. -/
abbrev Search.Twin (L : Leeway) {α β : Type} (R : α → β → Prop) : Search α → Search β → Prop :=
  Search.InStep (Question.Twin L) R

/-- Searches go in step when they are twins. -/
abbrev Search.pairing (L : Leeway) : Pairing Search Search := Search.stepwise (Question.Twin L)

theorem Search.Twin.about {L : Leeway} {q q' : Question} {A : q.Answer → q'.Answer → Prop}
    (hq : q.Twin L q' A) : Search.Twin L A (Search.about q) (Search.about q') :=
  Search.InStep.about hq

variable {f g : Found} {ms ns : List Member} {ts us : List Ty} {ps qs : List TypeParam} {s t : Scope}
  {a b : Ty}

section
variable {L : Leeway}

theorem Picker.blind_all : Picker.all.Blind L := fun _ => rfl

theorem Picker.blind_types : Picker.types.Blind L := fun h => h.isType_eq

theorem Picker.blind_classes : Picker.classes.Blind L := fun h => h.isClass_eq

theorem Found.Twin.inner (h : f.Twin L g) : f.inner.Twin L g.inner :=
  h.scope.enter (.decl h.decl)

/-! ## Names, imports and exports -/

mutual

theorem Decl.Twin.kin (d : Decl) {e : Decl} (h : d.Twin L e) : d.Kin e := by
  have hname := h.name?_eq
  cases d with
  | exports g x =>
    have ih := @Exportee.Twin.kin x
    cases h with | exports hh hx => exact .exports hh.kind (ih hx)
  | imports i => cases h with | imports hi => exact .imports hi.source hi.imported
  | global | exportAs => cases h; constructor
  | _ => cases h; constructor; exact Option.some.inj hname
termination_by structural d

theorem Exportee.Twin.kin (x : Exportee) {y : Exportee} (h : x.Twin L y) : x.Kin y := by
  cases x with
  | inline d =>
    have ih := @Decl.Twin.kin d
    cases h with | inline hd => exact .inline (ih hd)
  | _ => cases h; constructor
termination_by structural x

end

/-- Twins correspond to each other. -/
def Leeway.likeness (L : Leeway) : Likeness where
  scope := Scope.Twin L
  found := Found.Twin L
  member _ _ := Decl.Twin L
  question := Question.Twin L
  settled hs := hs.isSettled_eq
  containers hs := hs.outwards.filter Scope.Twin.isContainer_eq
  file hs := hs.fileScope?
  dependencies hs := hs.dependencyScopes
  library hs x := List.rel_flatMap (hs.root.find? x).toList fun _ _ hd =>
    List.rel_map (fun _ _ hr => ⟨hd.module, hr⟩) (hs.dependencyRoot? x).toList
  members hs := hs.members
  memberKin h := h.kin _
  here hs h := ⟨h, hs⟩
  exportee hs h := ⟨h.unwrapExport, hs⟩
  foundKin h := h.decl.kin _
  inner h := h.inner
  imported hs h := by
    cases h with | imports hi => exact .imported hs hi
  exported hs h := by
    cases h with | exports hh he => exact .exported hs hh he

/-! ## Members and keys -/

theorem inheritMember_twin (h : Member.Twins L ms ns) {m n : Member} (hm : m.Twin L n) :
    Member.Twins L (inheritMember ms m) (inheritMember ns n) := by
  rw [inheritMember, inheritMember, hm.name?_eq]
  cases n.name? with
  | none => exact h.append (.cons hm .nil)
  | some x =>
    simp only
    rw [h.any_eq fun hm => by rw [hm.name?_eq]]
    split
    · exact h
    · exact h.append (.cons hm .nil)

theorem joinContributions_twin {cs ds : List Contribution}
    (h : List.Forall₂ (Contribution.Twin L) cs ds) :
    Option.Rel (Member.Twins L) (joinContributions cs) (joinContributions ds) := by
  rw [joinContributions, joinContributions, h.any_eq Contribution.Twin.resolved]
  split
  · have hown := h.flatMap Contribution.Twin.own
    have hinh := h.flatMap Contribution.Twin.inherited
    exact .some (hinh.foldl (S := Member.Twins L) (fun hms hm =>
      inheritMember_twin hms hm) hown)
  · exact .none

theorem membersOfParent_twin (hs : s.Twin L t) (h : a.Twin L b) :
    Search.Twin L (Member.Twins L) (membersOfParent s a) (membersOfParent t b) := by
  cases h with
  | ref _ _ =>
    exact .bind (.about (.members hs)) fun _ _ hms => .done (hms.getD .nil)
  | object _ hms => exact .done hms
  | _ => exact .done .nil

mutual

theorem membersOfAlias_twin (a : Ty) {b : Ty} {s t : Scope} (hs : s.Twin L t) (h : a.Twin L b) :
    Search.Twin L (Option.Rel (Member.Twins L)) (membersOfAlias s a)
      (membersOfAlias t b) := by
  cases a with
  | object i ms =>
    cases h with | object _ hms =>
      rw [membersOfAlias, membersOfAlias, Member.isTypeMapping_eq hms]
      refine .done ?_
      split
      · exact .none
      · exact .some hms
  | ref i x ts =>
    cases h with | ref _ _ =>
      rw [membersOfAlias, membersOfAlias]
      exact .about (.members hs)
  | intersect i ts =>
    have ih := @membersOfAliases_twin ts
    cases h with | intersect _ hts =>
      rw [membersOfAlias, membersOfAlias]
      exact ih hs hts
  | _ =>
    cases h
    simp only [membersOfAlias]
    exact .done .none
termination_by structural a

theorem membersOfAliases_twin (as : List Ty) {bs : List Ty} {s t : Scope} (hs : s.Twin L t)
    (h : Ty.Twins L as bs) :
    Search.Twin L (Option.Rel (Member.Twins L)) (membersOfAliases s as)
      (membersOfAliases t bs) := by
  cases as with
  | nil =>
    cases h
    simp only [membersOfAliases]
    exact .done (.some .nil)
  | cons a as =>
    have ih₁ := @membersOfAlias_twin a
    have ih₂ := @membersOfAliases_twin as
    cases h with | cons ha has =>
      rw [membersOfAliases, membersOfAliases]
      refine .bind (ih₁ hs ha) fun _ _ hms => ?_
      cases hms with
      | none => exact .done .none
      | some hms =>
        refine .bind (ih₂ hs has) fun _ _ hns => ?_
        cases hns with
        | none => exact .done .none
        | some hns => exact .done (.some (hms.append hns))
termination_by structural as

end

theorem contributionOf_twin (hs : s.Twin L t) {d e : Decl} (h : d.Twin L e) :
    Search.Twin L (Contribution.Twin L) (contributionOf s d) (contributionOf t e) := by
  cases h with
  | iface hi =>
    exact .bind ((Search.pairing L).concatMapM hi.inheritance
      (membersOfParent_twin hs))
      fun _ _ hms => .done ⟨rfl, hi.members, hms⟩
  | cls hc =>
    exact .bind ((Search.pairing L).concatMapM (hc.parent.toList.append hc.implements)
      (membersOfParent_twin hs)) fun _ _ hms => .done ⟨rfl, hc.members, hms⟩
  | typeAlias ha =>
    refine .bind (membersOfAlias_twin _ hs ha.target) fun _ _ hms => ?_
    cases hms with
    | none => exact .done ⟨rfl, .nil, .nil⟩
    | some hms => exact .done ⟨rfl, hms, .nil⟩
  | _ => exact .done ⟨rfl, .nil, .nil⟩

theorem membersSearch_twin (hs : s.Twin L t) (q : QIdent) :
    Search.Twin L (Option.Rel (Member.Twins L)) (membersSearch s q)
      (membersSearch t q) := by
  rw [membersSearch, membersSearch, hs.isAbstract_eq]
  split
  · exact .done .none
  · refine .bind (.about (.name Picker.blind_types hs)) fun _ _ hfs => ?_
    exact .bind ((Search.pairing L).concatMapM hfs fun hf =>
        Search.Twin.about (.contribution hf))
      fun _ _ hcs => .done (joinContributions_twin hcs)

theorem keysOfMembers_eq (h : Member.Twins L ms ns) : keysOfMembers ms = keysOfMembers ns := by
  have hopen : (ms.any fun m => m.isDict || m.isMapped) = ns.any fun m => m.isDict || m.isMapped :=
    h.any_eq fun hm => by rw [hm.isDict_eq, hm.isMapped_eq]
  have hinst : Member.Twins L (ms.filter fun m => !m.isStatic && !m.isClassCtor)
      (ns.filter fun m => !m.isStatic && !m.isClassCtor) :=
    h.filter fun hm => by rw [hm.isStatic_eq, hm.isClassCtor_eq]
  rw [keysOfMembers, keysOfMembers, hopen, hinst.filterMap_eq Member.Twin.name?_eq]

theorem keysOfTarget_twin (hs : s.Twin L t) (h : a.Twin L b) :
    Search.Twin L Eq (keysOfTarget s a) (keysOfTarget t b) := by
  cases h with
  | object _ hms =>
    rw [keysOfTarget, keysOfTarget, Member.isTypeMapping_eq hms, keysOfMembers_eq hms]
    exact .done rfl
  | ref _ _ =>
    rw [keysOfTarget, keysOfTarget, hs.isAbstract_eq]
    split
    · exact .done rfl
    · refine .bind (.about (.members hs)) fun _ _ hms => .done ?_
      cases hms with
      | none => rfl
      | some hms => exact keysOfMembers_eq hms
  | _ => exact .done rfl

theorem keysOfAlias_twin (h : f.Twin L g) : Search.Twin L Eq (keysOfAlias f) (keysOfAlias g) := by
  obtain ⟨d, s⟩ := f
  obtain ⟨e, t⟩ := g
  cases h.decl with
  | typeAlias ha =>
    rw [keysOfAlias, keysOfAlias]
    simp only [ha.tparams.isEmpty_eq]
    split
    · have hq := Question.Twin.aliasKeys h ha.target
      exact .about hq
    · exact .done rfl
  | _ => exact .done rfl

theorem keysOfAliases_twin {fs gs : List Found} (h : List.Forall₂ (Found.Twin L) fs gs) :
    Search.Twin L Eq (keysOfAliases fs) (keysOfAliases gs) := by
  induction h with
  | nil => exact .done rfl
  | cons hf _ ih =>
    refine .bind (keysOfAlias_twin hf) fun ks _ hks => ?_
    subst hks
    cases ks with
    | none => exact ih
    | some ks => exact .done rfl

theorem keysOfUnion_twin (hs : s.Twin L t) (h : Ty.Twins L ts us) :
    Search.Twin L Eq (keysOfUnion s ts) (keysOfUnion t us) := by
  induction h with
  | nil => exact .done rfl
  | cons ht _ ih =>
    refine .bind (.about (.keys hs ht)) fun ks _ hks => ?_
    subst hks
    cases ks with
    | none => exact .done rfl
    | some ks =>
      refine .bind ih fun ls _ hls => ?_
      subst hls
      cases ls with
      | none => exact .done rfl
      | some ls => exact .done rfl

theorem keysSearch_twin (hs : s.Twin L t) (h : a.Twin L b) :
    Search.Twin L Eq (keysSearch s a) (keysSearch t b) := by
  cases h with
  | literal _ => exact .done rfl
  | union _ hts =>
    exact .bind (keysOfUnion_twin hs hts) fun ks _ hks => .done (by rw [hks])
  | keyOf _ ht => exact keysOfTarget_twin hs ht
  | ref _ hts =>
    cases hts with
    | nil =>
      rw [keysSearch, keysSearch, hs.isAbstract_eq]
      split
      · exact .done rfl
      · exact .bind (.about (.name Picker.blind_types hs)) fun _ _ hfs =>
          keysOfAliases_twin hfs
    | cons _ _ => exact .done rfl
  | _ => exact .done rfl

/-! ## Constructors -/

/-- Twins are replaced by twins. -/
def Substitution.Twin (L : Leeway) : Substitution → Substitution → Prop :=
  List.Forall₂ (Both (Ty.Twin L) (Ty.Twin L))

theorem bindsReference_eq (hps : TypeParam.Twins L ps qs) {t u : Ty} (ht : t.Twin L u) :
    bindsReference ps t = bindsReference qs u := by
  cases ht with
  | @ref _ _ q _ _ _ hts =>
    match q, hts with
    | [], _ | _ :: _ :: _, _ => rfl
    | [x], .nil => exact hps.any_eq fun hp => by rw [hp.name_eq]
    | [_], .cons _ _ => rfl
  | _ => rfl

theorem Substitution.Twin.under {a b : Substitution} (h : Substitution.Twin L a b) {x y : Node}
    (hxy : x.Twin L y) : Substitution.Twin L (a.under x) (b.under y) :=
  List.Forall₂.filter h fun hp => congrArg (!·) (bindsReference_eq hxy.tparams hp.fst)

theorem Substitution.Twin.replacement? {a b : Substitution} (h : Substitution.Twin L a b) {t u : Ty}
    (ht : t.Twin L u) : Option.Rel (Ty.Twin L) (a.replacement? t) (b.replacement? u) := by
  have hfind := List.Forall₂.find? (p := fun e => e.1 == t) (q := fun e => e.1 == u) h
    fun hp => Ty.beq_twin hp.fst ht
  unfold Substitution.replacement?
  generalize hx : List.find? _ a = x
  generalize hy : List.find? _ b = y
  rw [show a.find? (fun e => e.1 == t) = x from hx, show b.find? (fun e => e.1 == u) = y from hy] at hfind
  cases hfind with
  | none => exact .none
  | @some x y hxy =>
    obtain ⟨k, v⟩ := x
    obtain ⟨l, w⟩ := y
    have hvw : v.Twin L w := hxy.snd
    cases hvw with
    | this => cases ht <;> first | exact .none | exact .some .this
    | _ => exact .some hxy.snd

theorem substituteHooks_twin (strict : Prop) :
    Hooks.Twin .ofId L strict (Substitution.Twin L) substituteHooks substituteHooks :=
  leaveTy_twin .ofId (fun hc hxy => hc.under hxy) fun hc ht => hc.replacement? ht

theorem argumentsFor_twin (hL : L.Fair) (h : TypeParam.Twins L ps qs)
    (hts : Ty.Twins L ts us) :
    Substitution.Twin L (argumentsFor ps ts) (argumentsFor qs us) := by
  induction h generalizing ts us with
  | nil => exact .nil
  | cons hp _ ih =>
    cases hts with
    | nil => exact .cons ⟨hp.asTy hL, hp.default.getD (.ref hL.fresh .nil)⟩ (ih .nil)
    | cons ht hts => exact .cons ⟨hp.asTy hL, ht⟩ (ih hts)

theorem instantiation_twin (hL : L.Fair) (h : TypeParam.Twins L ps qs)
    (hts : Ty.Twins L ts us) :
    Substitution.Twin L (instantiation ps ts) (instantiation qs us) :=
  putAll_twin Ty.beq_twin (List.Forall₂.filter (argumentsFor_twin hL h hts) fun hp =>
    congrArg (!·) (Ty.beq_twin hp.fst hp.snd))

theorem Member.Twin.instantiate {a b : Substitution} (h : Substitution.Twin L a b) {m n : Member}
    (hm : m.Twin L n) : (m.instantiate a).Twin L (n.instantiate b) := by
  cases hm with
  | function hi hs => exact .function hi (walkSig_twin (substituteHooks_twin True) h hs).value
  | call hi hs => exact .call hi hs
  | ctor hi hs => exact .ctor hi hs
  | property hi ht he => exact .property hi ht he
  | dict hi hk hv => exact .dict hi hk hv
  | single hi hv => exact .single hi hv
  | mapped hi hs ha ht => exact .mapped hi hs ha ht

theorem instantiateCtors_twin (hL : L.Fair) {c d : ClassDecl} (hc : c.Twin L d)
    (hts : Ty.Twins L ts us) (hms : Member.Twins L ms ns) :
    Member.Twins L (instantiateCtors c ts ms) (instantiateCtors d us ns) := by
  have hsub := instantiation_twin hL hc.tparams hts
  rw [instantiateCtors, instantiateCtors]
  simp only [List.Forall₂.isEmpty_eq hsub]
  split
  · exact hms
  · exact List.rel_map (fun _ _ hm => hm.instantiate hsub) hms

theorem ctorsOfFound_twin (hL : L.Fair) (hts : Ty.Twins L ts us) (h : f.Twin L g) :
    Search.Twin L (Member.Twins L) (ctorsOfFound ts f) (ctorsOfFound us g) := by
  obtain ⟨d, s⟩ := f
  obtain ⟨e, t⟩ := g
  cases h.decl with
  | cls hc =>
    exact .bind (.about (.ctorsOf h hc)) fun _ _ hms =>
      .done (instantiateCtors_twin hL hc hts hms)
  | _ => exact .done .nil

theorem ctorsSearch_twin (hL : L.Fair) (hs : s.Twin L t) (q : QIdent)
    (hts : Ty.Twins L ts us) :
    Search.Twin L (Member.Twins L) (ctorsSearch s q ts) (ctorsSearch t q us) :=
  .bind (.about (.name Picker.blind_classes hs)) fun _ _ hfs =>
    (Search.pairing L).firstNonempty hfs (ctorsOfFound_twin hL hts)

theorem classCtorsSearch_twin (hs : s.Twin L t) {c d : ClassDecl} (h : c.Twin L d) :
    Search.Twin L (Member.Twins L) (classCtorsSearch s c) (classCtorsSearch t d) := by
  have hown := h.members.filter Member.Twin.isClassCtor_eq
  rw [classCtorsSearch, classCtorsSearch]
  simp only [hown.isEmpty_eq]
  split
  · exact .done hown
  · obtain ⟨hpar⟩ : Nonempty (Option.Rel (Ty.Twin L) c.parent d.parent) := ⟨h.parent⟩
    generalize c.parent = p at hpar ⊢
    generalize d.parent = q at hpar ⊢
    cases hpar with
    | none => exact .done .nil
    | some ht =>
      cases ht with
      | ref _ hts => exact .about (.ctors hs hts)
      | _ => exact .done .nil

/-! ## All searches -/

/-- **Twin questions have twin searches.** -/
theorem Question.Twin.search (hL : L.Fair) {q q' : Question} {A : q.Answer → q'.Answer → Prop}
    (h : q.Twin L q' A) : Search.Twin L A q.search q'.search := by
  cases h with
  | name hp hs => exact L.likeness.nameSearch (fun hf => hp hf.decl) hs _
  | imported hs hi =>
    exact L.likeness.importSearch (fun hs _ => .name Picker.blind_all hs) hs hi.source hi.imported
  | exported hs hh he =>
    refine L.likeness.exportSearch (fun hs _ => .name Picker.blind_all hs) hs hh.kind (he.kin _) ?_
    rintro d e rfl rfl
    cases he with | inline hd => exact ⟨hd, hs⟩
  | members hs => exact membersSearch_twin hs _
  | contribution hf =>
    exact .bind (contributionOf_twin hf.inner hf.decl) fun _ _ hc =>
      .done (.cons hc .nil)
  | keys hs ht => exact keysSearch_twin hs ht
  | aliasKeys hf ht =>
    have hq := Question.Twin.keys hf.inner ht
    exact .about hq
  | ctors hs hts => exact ctorsSearch_twin hL hs _ hts
  | ctorsOf hf hc => exact classCtorsSearch_twin hf.inner hc

end

end Ambient
