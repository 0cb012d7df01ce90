import Ambient.Proofs.Regroup
import Ambient.Proofs.Rewritten

/-!
# Names of new classes

A class in the place of a variable takes a name that no type of the container has. It does not look at the
classes that other variables of the container become, so two variables of one name can become two classes of
one name. Nothing else can share its name with a new class.

* `MadeApart`: what becomes of the declarations of a container, for a notion of which may share a name.
* `extractClasses_apart`: only variables of one name become types of one name, and where variables have
  different names no new class shares its name with another type.
-/

namespace Ambient

/-! ## One container -/

/-- The declarations are variables of one name, themselves or exported where they stand. -/
def Decl.SameVariable (d e : Decl) : Prop :=
  ∃ v w, d.unwrapExport = .var v ∧ e.unwrapExport = .var w ∧ v.name = w.name

/-- Each declaration is kept or has a class in its place, exported as it was. Where such a class has the name
of another type of the list, their places are those of declarations that may share a name. -/
structure MadeApart (suffix : String) (mayShare : Decl → Decl → Prop) (ds ds' : List Decl) : Prop where
  each : List.Forall₂ (Decl.BecomesClass (VarDecl.MadeClass suffix)) ds ds'
  apart : ∀ {i j : Nat} {d d' e e' : Decl}, i ≠ j → ds[i]? = some d → ds'[i]? = some d' → ds[j]? = some e → ds'[j]? = some e' →
    d.unwrapExport.isType = false → d'.unwrapExport.isType = true → e'.unwrapExport.isType = true →
    e'.unwrapExport.name? = d'.unwrapExport.name? → mayShare d e

section
variable {P Q : VarDecl → ClassDecl → Prop} {d d' : Decl}

theorem Decl.BecomesClass.mono (hPQ : ∀ {v c}, P v c → Q v c) (h : d.BecomesClass P d') : d.BecomesClass Q d' := by
  cases h with
  | kept => exact .kept _
  | made h => exact .made (hPQ h)
  | exported head h => exact .exported head (hPQ h)

theorem Decl.BecomesClass.kept_or_made (h : d.BecomesClass P d') :
    d' = d ∨ ∃ v c, d.unwrapExport = .var v ∧ d'.unwrapExport = .cls c ∧ P v c := by
  cases h with
  | kept => exact .inl rfl
  | made h => exact .inr ⟨_, _, rfl, rfl, h⟩
  | exported _ h => exact .inr ⟨_, _, rfl, rfl, h⟩

end

theorem List.Forall₂.getElem? {α β : Type} {R : α → β → Prop} {as : List α} {bs : List β}
    (h : List.Forall₂ R as bs) {i : Nat} {a : α} {b : β} (ha : as[i]? = some a) (hb : bs[i]? = some b) : R a b := by
  obtain ⟨hi, rfl⟩ := List.getElem?_eq_some_iff.1 ha
  obtain ⟨hi', rfl⟩ := List.getElem?_eq_some_iff.1 hb
  exact h.get hi hi'

theorem name_eq_of_className? {suffix : String} {ds : List Decl} {v w : VarDecl} {x : Ident} {d e : Decl}
    (hd : d ∈ ds) (he : e ∈ ds) (hv : d.unwrapExport = .var v) (hw : e.unwrapExport = .var w)
    (hvx : className? suffix ds v = some x) (hwx : className? suffix ds w = some x) : v.name = w.name := by
  rcases className?_eq_some hvx with ⟨hvname, -⟩ | ⟨hvname, hvfree⟩ <;>
    rcases className?_eq_some hwx with ⟨hwname, -⟩ | ⟨hwname, hwfree⟩
  · exact hvname.symm.trans hwname
  · exact absurd (by rw [hv, hvname]; rfl) (hwfree d hd)
  · exact absurd (by rw [hw, hwname]; rfl) (hvfree e he)
  · exact (String.append_left_inj suffix).1 (hvname.symm.trans hwname)

theorem madeApart_of_named {suffix : String} {ds ds' : List Decl}
    (h : List.Forall₂ (Decl.BecomesClass (VarDecl.Named suffix ds)) ds ds') :
    MadeApart suffix Decl.SameVariable ds ds' where
  each := h.imp fun _ _ hd => hd.mono And.left
  apart {i j d d' e e'} _ hd hd' he he' hvar hclass htype hname := by
    have hmade := (List.Forall₂.getElem? h hd hd').kept_or_made
    have hother := (List.Forall₂.getElem? h he he').kept_or_made
    rcases hmade with rfl | ⟨v, c, hv, hc, -, hvx⟩
    · rw [hclass] at hvar
      cases hvar
    rw [hc] at hname
    rcases hother with rfl | ⟨w, c', hw, hc', -, hwx⟩
    · -- the other type was there when the class got its name
      have hmem := List.mem_of_getElem? he
      rcases className?_eq_some hvx with ⟨-, hfree⟩ | ⟨-, hfree⟩
      · exact absurd hname (hfree _ hmem htype)
      · exact absurd hname (hfree _ hmem)
    · rw [hc'] at hname
      rw [Option.some.inj hname] at hwx
      exact ⟨v, w, hv, hw, name_eq_of_className? (List.mem_of_getElem? hd) (List.mem_of_getElem? he) hv hw hvx hwx⟩

/-! ## Files -/

/-- Variables with classes in their place, for a notion of which may share a name. Nothing else is done. -/
def classMaking (suffix : String) (mayShare : Decl → Decl → Prop) : Rewriting Scope where
  within := Scope.enter
  decls _ := MadeApart suffix mayShare
  members _ ms ms' := ms' = ms
  ty _ t t' := t' = t

/-- No two variables of a container have one name. -/
def File.VariablesApart (f : File) : Prop :=
  ∀ {n ds}, f.Contains n → n.members? = some ds → ds.Pairwise fun d e => ¬ d.SameVariable e

section
variable {C : Type} {W : Rewriting C} {c : C} {d d' e e' : Decl}

theorem Node.Rewritten.of_unwrapped_var {v' : VarDecl} (h : (Node.decl d).Rewritten W c (.decl d'))
    (hv' : d'.unwrapExport = .var v') : ∃ v, d.unwrapExport = .var v ∧ v.name = v'.name := by
  have hvar : ∀ {c n}, Node.Rewritten W c n (.decl (.var v')) → ∃ v, n = .decl (.var v) ∧ v.name = v'.name := by
    intro c n h
    cases (h.of_plain rfl rfl fun _ h => by cases h).1 with
    | leaf => exact ⟨_, rfl, rfl⟩
    | var v t e => exact ⟨v, rfl, rfl⟩
  unfold Decl.unwrapExport at hv'
  split at hv'
  · subst hv'
    obtain ⟨d₀, hd, h₀⟩ := h.of_exportee
    cases hd
    obtain ⟨v, hv, hname⟩ := hvar h₀
    cases hv
    exact ⟨v, rfl, hname⟩
  · subst hv'
    obtain ⟨v, hv, hname⟩ := hvar h
    cases hv
    exact ⟨v, rfl, hname⟩

theorem Decl.SameVariable.of_rewritten (hd : (Node.decl d).Rewritten W c (.decl d'))
    (he : (Node.decl e).Rewritten W c (.decl e')) (h : d'.SameVariable e') : d.SameVariable e := by
  obtain ⟨v', w', hv', hw', hname⟩ := h
  obtain ⟨v, hv, hvname⟩ := hd.of_unwrapped_var hv'
  obtain ⟨w, hw, hwname⟩ := he.of_unwrapped_var hw'
  exact ⟨v, w, hv, hw, hvname.trans (hname.trans hwname.symm)⟩

end

theorem Decl.SameVariable.symm {d e : Decl} (h : d.SameVariable e) : e.SameVariable d := by
  obtain ⟨v, w, hv, hw, hname⟩ := h
  exact ⟨w, v, hw, hv, hname.symm⟩

theorem File.VariablesApart.not_same {f : File} (h : f.VariablesApart) {n : Node} {ds : List Decl}
    (hn : f.Contains n) (hds : n.members? = some ds) {i j : Nat} (hij : i ≠ j) {d e : Decl} (hd : ds[i]? = some d)
    (he : ds[j]? = some e) : ¬ d.SameVariable e := by
  obtain ⟨hi, rfl⟩ := List.getElem?_eq_some_iff.1 hd
  obtain ⟨hj, rfl⟩ := List.getElem?_eq_some_iff.1 he
  have hpairs := List.pairwise_iff_getElem.1 (h hn hds)
  rcases Nat.lt_or_gt_of_ne hij with hlt | hlt
  · exact hpairs i j hi hj hlt
  · exact fun hsame => hpairs j i hj hi hlt hsame.symm

theorem classHooks_acts (suffix : String) (mayShare : Decl → Decl → Prop) (visits : Scope → Node → Prop)
    (hchild : ∀ {s n n'}, visits s n → n' ∈ n.children → visits (s.enter n) n')
    (hshare : ∀ {s n} {ds ds' : List Decl}, visits s n → n.members? = some ds → ds'.length = ds.length →
      (∀ (i : Nat) (d d' : Decl), ds[i]? = some d → ds'[i]? = some d' →
        (Node.decl d).Rewritten (classMaking suffix mayShare) (s.enter n) (.decl d')) →
      ∀ {i j : Nat} {d e : Decl}, i ≠ j → ds'[i]? = some d → ds'[j]? = some e → d.SameVariable e → mayShare d e) :
    (classHooks suffix).Acts succeeding visits (classMaking suffix mayShare) where
  idle := {}
  within := rfl
  child := hchild
  enterFile := .pure rfl
  enterDecl := .pure rfl
  leaveDecl := .pure rfl
  newMembers {_ s n ds ds'} _ hv hds hlen hparts := by
    refine .bind (extractEach_becomes suffix (s.enter n) ds' ds') fun e _ _ he => .pure ?_
    rw [Edited.getD_toOption he.2]
    have hmade := madeApart_of_named he.1
    exact ⟨hmade.each, fun hij hd hd' he he' hvar hclass htype hname =>
      hshare hv hds hlen hparts hij hd he (hmade.apart hij hd hd' he he' hvar hclass htype hname)⟩
  newClassMembers _ _ := .pure rfl
  leaveTy _ _ := .pure rfl

/-- **New classes clash only with each other.** If classes are made for the variables of a file, each container
has its declarations, in their order and rewritten inside, some of them variables with classes in their place.
A class that was made has the name of another type of its container only if both were made, from variables of
one name. So if no two variables of a container have one name, no class that was made shares its name. -/
theorem extractClasses_apart (suffix : String) (root : Scope) {f : File} {e : Edited File} {σ σ' : Session}
    (h : (extractClasses suffix root f).run σ = .ok (e, σ')) :
    (Node.file f).Rewritten (classMaking suffix Decl.SameVariable) root (.file e.value) ∧
      (f.VariablesApart → (Node.file f).Rewritten (classMaking suffix fun _ _ => False) root (.file e.value)) := by
  constructor
  · have hacts := classHooks_acts suffix Decl.SameVariable (fun _ _ => True) (fun _ _ => trivial)
      fun _ _ _ _ _ _ _ _ _ _ _ hsame => hsame
    exact walkFile_rewritten hacts f trivial () σ _ h
  · intro hapart
    have hacts := classHooks_acts suffix (fun _ _ => False) (fun _ n => f.Contains n)
      .child fun {s n ds ds'} hn hds hlength hparts {i j d' e'} hij hd' he' hsame => ?_
    · exact walkFile_rewritten hacts f .file () σ _ h
    · have hi : i < ds.length := hlength ▸ (List.getElem?_eq_some_iff.1 hd').1
      have hj : j < ds.length := hlength ▸ (List.getElem?_eq_some_iff.1 he').1
      have hd := List.getElem?_eq_getElem hi
      have he := List.getElem?_eq_getElem hj
      exact hapart.not_same hn hds hij hd he (hsame.of_rewritten (hparts i _ _ hd hd') (hparts j _ _ he he'))

/-- A variable `A` of a type that constructs something. -/
def constructing : Decl := .ofVar "A" (.constructor 0 false (.ofParams [] none))

/-- The declaration, and next to it, exported, the variable `A`. -/
def nextToConstructing (d : Decl) : Library := ⟨"lib", File.ofMembers "lib" [d, .ofExportInline constructing], []⟩

/-- The names of the types of a library once classes are made. -/
def Library.typesWithClasses (lib : Library) : Option (List (Option Ident)) :=
  ((extractClasses "Cls" (.ofRoot (lib.root false)) lib.file).run {}).toOption.map fun r =>
    (r.1.value.members.filter fun d => d.unwrapExport.isType).map fun d => d.unwrapExport.name?

theorem variablesApart_interface : (nextToConstructing (.ofInterface "A" [])).file.VariablesApart := by
  let nodes : List Node := [.file (nextToConstructing (.ofInterface "A" [])).file, .decl (.ofInterface "A" []),
    .decl (.ofExportInline constructing), .decl constructing, .ty (.constructor 0 false (.ofParams [] none)),
    .sig (.ofParams [] none)]
  have hclos : ∀ n ∈ nodes, ∀ m ∈ n.children, m ∈ nodes := by
    simp [nodes, Node.children, Node.childrenOfDecl, Node.childrenOfTy, nextToConstructing, File.ofMembers,
      Decl.ofInterface, Decl.ofExportInline, Decl.ofVar, constructing, Expr.nodesOption, Signature.ofParams]
  intro n ds hn hds
  have hmem : n ∈ nodes := by
    clear hds
    induction hn with
    | file => exact .head _
    | child _ hm ih => exact hclos _ ih _ hm
  rcases List.mem_cons.1 hmem with rfl | hmem
  · cases hds
    refine .cons (fun e _ => ?_) (.cons (fun e he => by cases he) .nil)
    rintro ⟨v, _, hv, -⟩
    cases hv
  · have hnone : ∀ n ∈ nodes.tail, n.members? = none := by
      simp [nodes, Node.members?, Decl.members?, Decl.ofInterface, Decl.ofExportInline, Decl.ofVar, constructing]
    cases (hnone n hmem).symm.trans hds

/-- Next to an interface `A` the class is `ACls`, and no other type has that name. Next to another variable of
its kind there are two classes `A` in the end. -/
theorem extractClasses_apart_from_interface :
    (∃ e σ, (extractClasses "Cls" (.ofRoot ((nextToConstructing (.ofInterface "A" [])).root false))
        (nextToConstructing (.ofInterface "A" [])).file).run {} = .ok (e, σ) ∧
      (Node.file (nextToConstructing (.ofInterface "A" [])).file).Rewritten (classMaking "Cls" fun _ _ => False)
        (.ofRoot ((nextToConstructing (.ofInterface "A" [])).root false)) (.file e.value)) ∧
    (nextToConstructing (.ofInterface "A" [])).typesWithClasses = some [some "A", some "ACls"] ∧
    (nextToConstructing constructing).typesWithClasses = some [some "A", some "A"] := by
  have htypes : (nextToConstructing (.ofInterface "A" [])).typesWithClasses = some [some "A", some "ACls"] := by
    decide +kernel
  refine ⟨?_, htypes, by decide +kernel⟩
  cases hrun : (extractClasses "Cls" (.ofRoot ((nextToConstructing (.ofInterface "A" [])).root false))
      (nextToConstructing (.ofInterface "A" [])).file).run {} with
  | error failure =>
    rw [Library.typesWithClasses, hrun] at htypes
    cases htypes
  | ok r => exact ⟨r.1, r.2, rfl, (extractClasses_apart "Cls" _ hrun).2 variablesApart_interface⟩

end Ambient
