import Ambient.Proofs.Labels
import Ambient.Proofs.Twin.Interfaces
import Ambient.Proofs.Twin.Scoped

/-!
# Compiling twins

Two libraries whose files differ in identities and comments only are compiled in step, whatever
identities the steps give to their nodes (`compileBy_upTo`): both fail with the same error, or the
results differ in identities and comments only.

* `File.UpTo C H`: the files differ at most in identities, in comments that `C` relates, and in the
  comments of object types and mapped rules, which `H` relates.
* `Leeway.labelled φ ψ C H`: the leeway within a step, in which identities correspond when the two
  labellings give them to the same number.
-/

namespace Ambient

/-! ## Steps -/

variable {f g : File} {strict : Prop}

section
variable {L : Leeway}

theorem Edited.Twin.weaken {α β : Type} {R : α → β → Prop} {e : Edited α} {e' : Edited β}
    (h : e.Twin True R e') : e.Twin strict R e' :=
  ⟨h.value, fun _ => h.changed trivial⟩

/-- **Every step takes twins to twins.** Both are changed or neither is, if that matters, but for a step
that drops comments where the texts do not correspond. -/
theorem Pass.run_twin (hL : L.Fair) {p : Pass}
    (hsub : ∀ sub, p = .typeRewriter sub → Substitution.Twin L sub sub)
    (hstr : strict → p = .keepFirstOverloadComment → L.KeepsTexts) {s s' : Scope} (hs : s.Twin L s')
    (h : f.Twin L g) :
    (resolving L).rel (Edited.Twin strict (File.Twin L)) (p.run s f) (p.run s' g) := by
  cases p with
  | setCodePath lib => exact .pure (setCodePaths_twin strict lib h)
  | simplifyTypes => exact .pure (simplifyTypes_twin hL strict h)
  | expandTypeMappings => exact (resolving L).mono (expandTypeMappings_twin hL hs h) Edited.Twin.weaken
  | normalizeFunctions => exact .pure (normalizeFunctions_twin hL strict h)
  | extractClasses suffix =>
    exact (resolving L).mono (extractClasses_twin hL hs suffix h) Edited.Twin.weaken
  | forwardCtors => exact (resolving L).mono (forwardCtors_twin hL hs h) Edited.Twin.weaken
  | hoisting => exact (resolving L).mono (hoistExports_twin hL hs h) Edited.Twin.weaken
  | extractInterfaces stem =>
    exact (resolving L).mono (extractInterfaces_twin hL hs stem h) Edited.Twin.weaken
  | typeRewriter sub => exact .pure ((hsub sub rfl).inFile strict h)
  | keepFirstOverloadComment =>
    exact .pure (keepFirstOverloadComment_twin hL (fun hs => hstr hs rfl) h)

theorem Options.substitution_twin (hL : L.Fair) (o : Options) :
    Substitution.Twin L o.substitution o.substitution := by
  refine putAll_twin Ty.beq_twin ?_
  induction o.typeSubstitutions with
  | nil => exact .nil
  | cons sub subs ih => exact .cons ⟨hL.reference _, hL.reference _⟩ ih

theorem Pass.ofOptions_twin (hL : L.Fair) (o : Options) (lib : Ident) (p : PassName) :
    ∀ sub, Pass.ofOptions o lib p = .typeRewriter sub → Substitution.Twin L sub sub := by
  intro sub h
  cases p with
  | typeRewriter =>
    cases h
    exact o.substitution_twin hL
  | _ => cases h

end

/-! ## Identities -/

/-- The leeway in which identities correspond when the labellings give them to the same number. -/
def Leeway.labelled (φ ψ : Labelling) (C H : Comments → Comments → Prop) : Leeway :=
  ⟨fun i j => ∃ n, i = φ.label n ∧ j = ψ.label n, C, H⟩

theorem Labelling.label_iff (φ ψ : Labelling) {i j k l : NodeId} (h : ∃ n, i = φ.label n ∧ j = ψ.label n)
    (h' : ∃ n, k = φ.label n ∧ l = ψ.label n) : i = k ↔ j = l := by
  obtain ⟨n, rfl, rfl⟩ := h
  obtain ⟨m, rfl, rfl⟩ := h'
  rw [φ.injective.eq_iff, ψ.injective.eq_iff]

/-- The comments that correspond in the leeway are related. -/
structure Leeway.Within (L : Leeway) (C H : Comments → Comments → Prop) : Prop where
  comments : ∀ {a b}, L.comments a b → C a b
  hints : ∀ {a b}, L.hints a b → H a b

/-- The files differ at most in identities, in comments that `C` relates, and in the comments of object
types and mapped rules, which `H` relates. -/
def File.UpTo (C H : Comments → Comments → Prop) (f g : File) : Prop :=
  ∃ L : Leeway, L.Within C H ∧ f.Twin L g

/-- The libraries have the same name, and files and dependencies that differ at most in identities and
comments. -/
structure Library.UpTo (C H : Comments → Comments → Prop) (a b : Library) : Prop where
  name : a.name = b.name
  file : a.file.UpTo C H b.file
  deps : List.Forall₂ (Both Eq (File.UpTo C H)) a.deps b.deps

section
variable {C H : Comments → Comments → Prop} (φ ψ : Labelling)

theorem File.UpTo.relabel (h : f.UpTo C H g) (n : Nat) :
    Both (File.Twin (.labelled φ ψ C H)) Eq (f.relabel φ n) (g.relabel ψ n) := by
  obtain ⟨L, hL, h⟩ := h
  have hnext : L.Renumbers (Pairing.ofId.stateT Eq) (.labelled φ ψ C H) φ.next ψ.next :=
    { ids := fun _ s t hst => hst ▸ ⟨⟨s, rfl, rfl⟩, rfl⟩
      comments := hL.comments
      hints := hL.hints }
  exact File.renumber_twin hnext h n n rfl

/-- The labelled dependencies are twins, with as many labels used up. -/
structure Dependencies.Twin (L : Leeway) (d e : Dependencies) : Prop where
  libs : List.Forall₂ (Dependency.Twin L) d.libs e.libs
  nextId : d.nextId = e.nextId

theorem Dependencies.Twin.addBy (hL : (Leeway.labelled φ ψ C H).Fair) {d e : Dependencies}
    (h : d.Twin (.labelled φ ψ C H) e) (x : Ident) (hf : f.UpTo C H g) :
    (d.addBy φ x f).Twin (.labelled φ ψ C H) (e.addBy ψ x g) := by
  have hlabs := hf.relabel φ ψ e.nextId
  rw [Dependencies.addBy, Dependencies.addBy, h.nextId]
  refine ⟨h.libs.append (.cons ⟨rfl, hlabs.fst, ?_⟩ .nil), congrArg (· + 1) hlabs.snd⟩
  refine .module ⟨⟨⟨_, rfl, ?_⟩, hL.comments_nil⟩, rfl, rfl, hlabs.fst.codePath, rfl⟩
    hlabs.fst.members
  rw [hlabs.snd]

theorem Dependencies.ofFilesBy_twin (hL : (Leeway.labelled φ ψ C H).Fair) {fs gs : List (Ident × File)}
    (h : List.Forall₂ (Both Eq (File.UpTo C H)) fs gs) :
    (Dependencies.ofFilesBy φ fs).Twin (.labelled φ ψ C H) (Dependencies.ofFilesBy ψ gs) := by
  have hput := putAll_twin (K := Eq) (fun hk hl => by rw [hk, hl]) h
  refine hput.foldl (S := Dependencies.Twin (.labelled φ ψ C H)) ?_ ⟨.nil, rfl⟩
  rintro d e ⟨x, f⟩ ⟨y, g⟩ hde ⟨hxy, hfg⟩
  obtain rfl : x = y := hxy
  exact hde.addBy φ ψ hL x hfg

theorem Library.UpTo.rootBy (hL : (Leeway.labelled φ ψ C H).Fair) {a b : Library} (h : a.UpTo C H b)
    (o : Options) : (a.rootBy φ o).Twin (.labelled φ ψ C H) (b.rootBy ψ o) :=
  ⟨h.name, rfl, (Dependencies.ofFilesBy_twin φ ψ hL h.deps).libs⟩

/-! ## Runs -/

theorem Pass.runBy_upTo (hL : (Leeway.labelled φ ψ C H).Fair) {a b : Library} (h : a.UpTo C H b)
    (o : Options) (p : PassName)
    (hstr : strict → p = .keepFirstOverloadComment → (Leeway.labelled φ ψ C H).KeepsTexts)
    (hf : f.UpTo C H g) :
    Alike (Edited.Twin strict (File.UpTo C H))
      ((Pass.ofOptions o a.name p).runBy φ (a.rootBy φ o) o.enableScopeCache f)
      ((Pass.ofOptions o b.name p).runBy ψ (b.rootBy ψ o) o.enableScopeCache g) := by
  have hnext : (a.rootBy φ o).deps.nextId = (b.rootBy ψ o).deps.nextId :=
    (Dependencies.ofFilesBy_twin φ ψ hL h.deps).nextId
  have hscope := Scope.Twin.ofRoot (h.rootBy φ ψ hL o)
  have hlabs := hf.relabel φ ψ (b.rootBy ψ o).deps.nextId
  have hsess : Session.Twin (.labelled φ ψ C H)
      { memo := if o.enableScopeCache then some {} else none }
      { memo := if o.enableScopeCache then some {} else none } := by
    refine ⟨rfl, ?_⟩
    dsimp only
    split
    · exact .some .empty
    · exact .none
  have hstr' : strict → Pass.ofOptions o b.name p = .keepFirstOverloadComment →
      (Leeway.labelled φ ψ C H).KeepsTexts := by
    intro hs hp
    refine hstr hs ?_
    cases p <;> first | rfl | cases hp
  rw [Pass.runBy, Pass.runBy, hnext, h.name]
  have hrun := Pass.run_twin hL (Pass.ofOptions_twin hL o b.name p) hstr' hscope hlabs.fst _ _
    hsess
  exact (Pairing.ofExcept Failure).bind hrun fun _ _ he =>
    .ok ⟨⟨_, ⟨id, id⟩, he.fst.value⟩, he.fst.changed⟩

end

section
variable {C H : Comments → Comments → Prop} (hL : ∀ φ ψ : Labelling, (Leeway.labelled φ ψ C H).Fair)
  (keep : PassName → Bool)
  (hkeep : keep .keepFirstOverloadComment = true → ∀ φ ψ : Labelling,
    (Leeway.labelled φ ψ C H).KeepsTexts)
  (φ ψ : PassName → Labelling) {a b : Library} (h : a.UpTo C H b) (o : Options)
include hL hkeep h

/-- All steps. By induction on the steps: the files stay alike, and the steps that `keep` lets count
change both or neither. -/
theorem runPassesBy_upTo (ps : List PassName) (hf : f.UpTo C H g) :
    Alike (Both (File.UpTo C H) fun xs ys => xs.filter keep = ys.filter keep)
      (runPassesBy φ o a ps f) (runPassesBy ψ o b ps g) := by
  induction ps generalizing f g with
  | nil => exact .ok ⟨hf, rfl⟩
  | cons p ps ih =>
    have hstr : keep p = true → p = .keepFirstOverloadComment →
        (Leeway.labelled (φ p) (ψ p) C H).KeepsTexts := by
      rintro hp rfl
      exact hkeep hp _ _
    have hstep := Pass.runBy_upTo (φ p) (ψ p) (hL _ _) h o p hstr hf
    rw [runPassesBy, runPassesBy]
    generalize (Pass.ofOptions o a.name p).runBy _ _ _ f = r at hstep ⊢
    generalize (Pass.ofOptions o b.name p).runBy _ _ _ g = r' at hstep ⊢
    cases hstep with
    | error => rw [h.name]; exact .error
    | @ok e e' he =>
      refine (Pairing.ofExcept CompileError).bind (ih he.value) fun x y hxy => .ok ⟨hxy.fst, ?_⟩
      by_cases hp : keep p = true
      · simp only [he.changed hp]
        split
        · simp only [List.filter_cons, hxy.snd]
        · exact hxy.snd
      · split <;> split <;> simp only [List.filter_cons, if_neg hp, hxy.snd]

/-- **Compiling is blind to identities and to comments that correspond.** -/
theorem compileBy_upTo :
    Alike (fun x y => x.name = y.name ∧ x.file.UpTo C H y.file ∧ x.passes = y.passes ∧
        x.changedBy.filter keep = y.changedBy.filter keep)
      (compileBy φ o a) (compileBy ψ o b) :=
  (Pairing.ofExcept CompileError).bind (runPassesBy_upTo hL keep hkeep φ ψ h o o.passes h.file)
    fun _ _ hr =>
    .ok ⟨h.name, hr.fst, rfl, hr.snd⟩

end

end Ambient
