import Ambient.Proofs.Beside
import Ambient.Proofs.Nesting
import Ambient.Proofs.Renumber
import Ambient.Proofs.Twin.Basic

/-!
# What a run leaves done

Some of what the steps do is not undone by a later one. In the file that a run gives

* every declaration has its place (`File.Placed.inPlace`),
* no function or method repeats the comment of one before it (`keepFirstOverloadComment_tidied`),
* outside type parameters every literal that gets a name has one (`extractInterfaces_named`), and inside
  them as well unless they are those of an interface that the run adds (`extractInterfaces_namedBut`).
-/

namespace Ambient

/-! ## Places -/

/-- The node stands inside `p`, and every declaration in it has its place. -/
def Node.Placed (lib : Ident) (p : CodePath) : Node → Prop
  | .file f => f.Placed lib
  | .decl d => d.Placed p
  | _ => True

variable {lib : Ident} {ms : List Member} {ns : List Node} {m n' : Node} {s : Scope}

variable {b : Bool} {p : CodePath} {d d' : Decl} {ds : List Decl} {ns' : List Node} {m' : Member}
  {T : Node → Node → Prop} {i : NodeInfo} {τ : Setting} {t t' : Ty} {α : Type}

theorem Node.Placed.child {n : Node} (h : n.Placed lib p) (hm : m ∈ n.children) :
    m.Placed lib (placeWithin lib p n) := by
  by_cases hpart : m.isPart = true
  · cases m <;> trivial
  obtain ⟨-, d, rfl⟩ := decl_of_mem_children hm (Bool.eq_false_iff.2 hpart)
  cases n with
  | file f =>
    obtain ⟨e, he, heq⟩ := List.mem_map.1 hm
    cases heq
    exact h.members _ he
  | decl e =>
    cases hds : e.members? with
    | some ds =>
      rw [children_of_members? (n := .decl e) hds] at hm
      obtain ⟨e', he', heq⟩ := List.mem_map.1 hm
      cases heq
      exact Decl.Placed.member h hds _ he'
    | none =>
      have hquiet : (Node.decl e).isQuiet ≠ true := fun hq => hpart (isPart_children hq hm)
      cases e with
      | exports head x =>
        cases x with
        | inline e =>
          cases List.mem_singleton.1 hm
          exact Decl.Placed.exported h
        | _ => cases hm
      | imports i => cases hm
      | exportAs e => cases hm
      | _ => first | exact absurd rfl hquiet | cases hds
  | _ => exact absurd (isPart_children rfl hm) hpart

theorem File.Placed.surrounded {f : File} (h : f.Placed lib) {n : Node} (hn : f.Surrounds lib p n) :
    n.Placed lib p := by
  induction hn with
  | file => exact h
  | child _ hm ih => exact ih.child hm

theorem File.Placed.inPlace {f : File} (h : f.Placed lib) : f.InPlace lib := by
  intro p n q hn hq
  have hplc := h.surrounded hn
  cases n with
  | file g =>
    cases hq
    exact hplc.here
  | decl d => exact Decl.Placed.here hplc hq
  | _ => cases hq

/-! ## Comments -/

/-- No function or method that stands directly in the node repeats the comment of one before it. -/
structure Node.Sparing (n : Node) : Prop where
  functions : ∀ {ds}, n.members? = some ds → Unrepeated Decl.commented? ds
  methods : ∀ {ms}, n.classMembers? = some ms → Unrepeated Member.commented? ms

/-- This holds of the node and of every node in it. -/
inductive Node.Uncluttered : Node → Prop
  | mk {n : Node} (here : n.Sparing) (inside : ∀ m ∈ n.children, Uncluttered m) : Uncluttered n

theorem Node.Uncluttered.sparing {n : Node} (h : n.Uncluttered) : n.Sparing := by
  cases h
  assumption

theorem Node.Uncluttered.child {n : Node} (h : n.Uncluttered) (hm : m ∈ n.children) : m.Uncluttered := by
  cases h with
  | mk _ inside => exact inside m hm

theorem Node.Uncluttered.file {f : File} (h : (Node.file f).Uncluttered) : f.Uncluttered := by
  have hall : ∀ {n}, f.Contains n → n.Uncluttered := by
    intro n hn
    induction hn with
    | file => exact h
    | child _ hm ih => exact ih.child hm
  exact ⟨fun hn hds => (hall hn).sparing.functions hds, fun hn hms => (hall hn).sparing.methods hms⟩

/-! ## The form of a tree -/

/-- What tells whether a literal gets a name. -/
structure Traits where
  isTy : Bool
  isConditional : Bool
  isObject : Bool
  isTypeParam : Bool
  namesItsType : Bool
  isDict : Bool
  isMapped : Bool

def Node.isObject : Node → Bool
  | .ty (.object _ _) => true
  | _ => false

def Node.isDict : Node → Bool
  | .member m => m.isDict
  | _ => false

def Node.isMapped : Node → Bool
  | .member m => m.isMapped
  | _ => false

def Node.traits (n : Node) : Traits :=
  ⟨n.isTy, n.isConditional, n.isObject, n.isTypeParam, n.namesItsType, n.isDict, n.isMapped⟩

/-- The trees have the same form, and corresponding nodes have the same traits. -/
inductive Node.SameForm : Node → Node → Prop
  | mk {n n' : Node} (traits : n'.traits = n.traits)
    (inside : List.Forall₂ SameForm n.children n'.children) : SameForm n n'

theorem Node.SameForm.traits_eq {n : Node} (h : n.SameForm n') : n'.traits = n.traits := by
  cases h
  assumption

theorem Node.SameForm.children {n : Node} (h : n.SameForm n') :
    List.Forall₂ SameForm n.children n'.children := by
  cases h
  assumption

theorem Node.Alike.traits_eq {n : Node} (h : n.Alike n') : n'.traits = n.traits := by
  cases h <;> rfl

theorem Node.withMembers?_keeps {n : Node} (h : n.withMembers? ds = some n') :
    n'.traits = n.traits ∧ n'.members? = some ds ∧ n'.classMembers? = none := by
  cases n with
  | file f =>
    cases h
    exact ⟨rfl, rfl, rfl⟩
  | decl d => cases d <;> cases h <;> exact ⟨rfl, rfl, rfl⟩
  | _ => cases h

theorem Node.withClassMembers?_traits {n : Node} (h : n.withClassMembers? ms = some n') :
    n'.traits = n.traits := by
  cases n with
  | decl d => cases d <;> cases h <;> rfl
  | ty t =>
    cases t <;> cases h
    rfl
  | _ => cases h

theorem Node.Relabelled.traits_eq {n : Node} (h : n.Relabelled n') : n'.traits = n.traits := by
  obtain ⟨k, rfl⟩ := h
  cases n with
  | ty t => cases t <;> rfl
  | member m =>
    cases m with
    | index i =>
      obtain ⟨_, _, _, x, _⟩ := i
      cases x <;> rfl
    | call x | ctor x | function x | property x | mapped x =>
      cases x
      rfl
  | decl d => cases d <;> rfl
  | _ => rfl

/-! ## Stripping repeated comments -/

theorem Decl.dropped_keeps (h : Dropped Decl.commented? Decl.strip d d') :
    (Node.decl d').traits = (Node.decl d).traits ∧ (Node.decl d').children = (Node.decl d).children ∧
      ((Node.decl d).Sparing → (Node.decl d').Sparing) := by
  rcases h with rfl | ⟨h, rfl⟩
  · exact ⟨rfl, rfl, fun h => h⟩
  · cases d with
    | function f => exact ⟨rfl, rfl, fun _ => ⟨nofun, nofun⟩⟩
    | _ => cases h

theorem Member.dropped_keeps {m : Member} (h : Dropped Member.commented? Member.strip m m') :
    (Node.member m').traits = (Node.member m).traits ∧
      (Node.member m').children = (Node.member m).children ∧
      ((Node.member m).Sparing → (Node.member m').Sparing) := by
  rcases h with rfl | ⟨h, rfl⟩
  · exact ⟨rfl, rfl, fun h => h⟩
  · cases m with
    | function f => exact ⟨rfl, rfl, fun _ => ⟨nofun, nofun⟩⟩
    | _ => cases h

/-- The node keeps its form, and no comment is repeated in it any more. -/
structure Node.Tidied (n n' : Node) : Prop where
  form : n.SameForm n'
  comments : n'.Uncluttered

theorem Node.Tidied.replaced {n n'' : Node} (h : n.Tidied n') (htr : n''.traits = n'.traits)
    (hch : n''.children = n'.children) (hspg : n'.Sparing → n''.Sparing) : n.Tidied n'' where
  form := .mk (htr.trans h.form.traits_eq) (hch ▸ h.form.children)
  comments := .mk (hspg h.comments.sparing) fun _ hm => h.comments.child (hch ▸ hm)

theorem Node.Tidied.mk_of_children {n : Node} (htr : n'.traits = n.traits) (hspg : n'.Sparing)
    (h : List.Forall₂ Node.Tidied n.children n'.children) : n.Tidied n' where
  form := .mk htr (h.imp fun _ _ h => h.form)
  comments := .mk hspg fun m' hm' => by
    obtain ⟨i, hi, rfl⟩ := List.getElem_of_mem hm'
    exact (h.get (h.length_eq ▸ hi) hi).comments

theorem Walked.forall₂ {R : Node → Node → Prop} (h : Walked (fun n n' _ => R n n') ns ns' b) :
    List.Forall₂ R ns ns' := by
  induction h with
  | nil => exact .nil
  | cons h _ ih => exact .cons h ih

theorem Walked.forall_mem {P : Node → Prop} (h : Walked (fun _ n' _ => P n') ns ns' b) : ∀ n' ∈ ns', P n' := by
  induction h with
  | nil => exact nofun
  | cons h _ ih => exact List.forall_mem_cons.2 ⟨h, ih⟩

/-- Lists of nodes of one kind that were tidied, and of which some lose their comments then. -/
theorem Node.Tidied.dropRepeated {node : α → Node} {commented? : α → Option Commented} {strip : α → α}
    (hkeeps : ∀ {a a'}, Dropped commented? strip a a' → (node a').traits = (node a).traits ∧
      (node a').children = (node a).children ∧ ((node a).Sparing → (node a').Sparing)) {as : List α}
    (h : List.Forall₂ Node.Tidied ns (as.map node)) (seen : List Commented) :
    List.Forall₂ Node.Tidied ns ((Ambient.dropRepeated commented? strip seen as).value.map node) := by
  induction as generalizing ns seen with
  | nil => exact h
  | cons a as ih =>
    cases h with
    | cons hn hns =>
      obtain ⟨a', seen', heq, ha, -⟩ := dropRepeated_cons commented? strip seen a as
      obtain ⟨htr, hch, hspg⟩ := hkeeps (.of_repeated ha)
      rw [heq]
      exact .cons (hn.replaced htr hch hspg) (ih hns seen')

theorem Node.children_of_classMembers? {n : Node} (h : n.classMembers? = some ms) :
    ∃ parts, n.children = parts ++ ms.map .member ∧ ∀ {ms' n'}, n.withClassMembers? ms' = some n' →
      n'.children = parts ++ ms'.map .member ∧ n'.members? = none ∧ n'.classMembers? = some ms' := by
  cases n with
  | decl d =>
    cases d with
    | cls c =>
      cases h
      refine ⟨c.tparams.map .tparam ++ c.parent.toList.map .ty ++ c.implements.map .ty, rfl, fun h => ?_⟩
      cases h
      exact ⟨rfl, rfl, rfl⟩
    | iface i =>
      cases h
      refine ⟨i.tparams.map .tparam ++ i.inheritance.map .ty, rfl, fun h => ?_⟩
      cases h
      exact ⟨rfl, rfl, rfl⟩
    | _ => cases h
  | ty t =>
    cases t with
    | object i ms =>
      cases h
      refine ⟨[], rfl, fun h => ?_⟩
      cases h
      exact ⟨rfl, rfl, rfl⟩
    | _ => cases h
  | _ => cases h

theorem Node.Alike.members?_none {n : Node} (h : n.Alike n') (hn : n.members? = none) :
    n'.members? = none := by
  cases h <;> first | rfl | exact hn

theorem Node.Alike.classMembers?_none {n : Node} (h : n.Alike n') (hn : n.classMembers? = none) :
    n'.classMembers? = none := by
  cases h <;> first | rfl | exact hn | cases hn

/-- **Repeated comments are stripped for good.** Apart from comments the file stays as it is. -/
theorem keepFirstOverloadComment_tidied (f : File) :
    (Node.file f).Tidied (.file (keepFirstOverloadComment f).value) := by
  let R : Unit → Unit → Unit → Node → Node → Bool → Prop := fun _ _ _ n n' _ => n.Tidied n'
  have hh : overloadHooks.Builds computing (fun _ _ => True) (fun _ _ p => p = none) R R :=
    { idle := {}
      child := fun _ _ => trivial
      mono := fun _ _ h => h
      plain := fun {w w' c n n' b} _ hds hms h => by
        have hds' := h.alike.members?_none hds
        have hms' := h.alike.classMembers?_none hms
        refine .mk_of_children h.alike.traits_eq ⟨?_, ?_⟩ h.parts.forall₂
        · exact fun h => nomatch hds'.symm.trans h
        · exact fun h => nomatch hms'.symm.trans h
      enterFile := fun _ => rfl
      enterDecl := fun _ => rfl
      newMembers := fun {w w' c n ds ds' b} _ _ hds hw n' hn' => by
        change n.withMembers? ((dropRepeated Decl.commented? Decl.strip [] ds').toOption.getD ds') =
          some n' at hn'
        rw [Edited.getD_toOption dropRepeated_unchanged] at hn'
        obtain ⟨htr, hds', hnone⟩ := Node.withMembers?_keeps hn'
        refine .mk_of_children htr ⟨fun h => ?_, fun h => ?_⟩ ?_
        · cases hds'.symm.trans h
          exact (dropRepeated_unrepeated Decl.commented?_strip [] ds').1
        · exact nomatch hnone.symm.trans h
        · rw [Node.children_of_members? hds', Node.children_of_members? hds]
          exact Node.Tidied.dropRepeated Decl.dropped_keeps hw.forall₂ []
      newClassMembers := fun {w w' c n n' ms b} _ _ h hms n'' hn'' => by
        change n'.withClassMembers? ((dropRepeated Member.commented? Member.strip [] ms).toOption.getD ms) =
          some n'' at hn''
        rw [Edited.getD_toOption dropRepeated_unchanged] at hn''
        obtain ⟨parts, hch, hparts⟩ := Node.children_of_classMembers? hms
        obtain ⟨hch'', hds'', hms''⟩ := hparts hn''
        have hwlk := hch ▸ h.parts.forall₂
        refine .mk_of_children ((Node.withClassMembers?_traits hn'').trans h.alike.traits_eq)
          ⟨fun h => ?_, fun h => ?_⟩ ?_
        · exact nomatch hds''.symm.trans h
        · cases hms''.symm.trans h
          exact (dropRepeated_unrepeated Member.commented?_strip [] ms).1
        · rw [hch'', ← List.take_append_drop parts.length n.children]
          refine List.rel_append (List.forall₂_take_append _ _ _ hwlk) ?_
          exact Node.Tidied.dropRepeated Member.dropped_keeps
            (List.forall₂_drop_append _ _ _ hwlk) []
      leaveFile := fun _ hp h => by
        subst hp
        exact h
      leaveDecl := fun _ hp h => by
        subst hp
        exact h
      leaveTy := fun _ h => h
      keep := fun _ _ h => h }
  exact walkFile_builds hh f trivial ()

theorem RelabelledAll.map_eq {β : Type} {node : α → Node} {g : α → β}
    (hg : ∀ {a a'}, (node a).Relabelled (node a') → g a' = g a) {as as' : List α}
    (h : RelabelledAll (as.map node) (as'.map node)) : as'.map g = as.map g := by
  induction as generalizing as' with
  | nil =>
    cases as' with
    | nil => rfl
    | cons a' as' => cases h
  | cons a as ih =>
    cases as' with
    | nil => cases h
    | cons a' as' =>
      cases h with
      | cons ha has => exact congrArg₂ List.cons (hg ha) (ih has)

theorem Decl.commented?_relabelled (h : (Node.decl d).Relabelled (.decl d')) :
    d'.commented? = d.commented? := by
  obtain ⟨k, hk⟩ := h
  cases hk
  cases d <;> rfl

theorem Member.commented?_relabelled {m : Member} (h : (Node.member m).Relabelled (.member m')) :
    m'.commented? = m.commented? := by
  obtain ⟨k, hk⟩ := h
  cases hk
  cases m with
  | index i =>
    obtain ⟨_, _, _, x, _⟩ := i
    cases x <;> rfl
  | call x | ctor x | function x | property x | mapped x =>
    cases x
    rfl

theorem Node.Relabelled.members? {n : Node} (h : n.Relabelled n') {ds' : List Decl}
    (hds' : n'.members? = some ds') :
    ∃ ds, n.members? = some ds ∧ RelabelledAll (ds.map .decl) (ds'.map .decl) := by
  have hch := h.children
  rw [children_of_members? hds'] at hch
  obtain ⟨k, rfl⟩ := h
  cases n with
  | file f => exact ⟨_, rfl, hch⟩
  | decl d =>
    cases d with
    | space | module | augmentation | global => exact ⟨_, rfl, hch⟩
    | _ => cases hds'
  | _ => cases hds'

theorem Member.relabelledList (ms : List Member) (k : NodeId) :
    RelabelledAll (ms.map .member) (((Member.renumberList nextId ms).run k).1.map .member) := by
  induction ms generalizing k with
  | nil => exact .nil
  | cons m ms ih => exact .cons ⟨k, rfl⟩ (ih _)

theorem Node.Relabelled.classMembers? {n : Node} (h : n.Relabelled n') {ms' : List Member}
    (hms' : n'.classMembers? = some ms') :
    ∃ ms, n.classMembers? = some ms ∧ RelabelledAll (ms.map .member) (ms'.map .member) := by
  obtain ⟨k, rfl⟩ := h
  cases n with
  | ty t =>
    cases t with
    | object i ms => cases hms'; exact ⟨_, rfl, Member.relabelledList ms _⟩
    | _ => cases hms'
  | decl d =>
    cases d with
    | cls c => cases hms'; exact ⟨_, rfl, Member.relabelledList c.members _⟩
    | iface i => cases hms'; exact ⟨_, rfl, Member.relabelledList i.members _⟩
    | _ => cases hms'
  | _ => cases hms'

theorem Node.Uncluttered.relabelled {n : Node} (h : n.Uncluttered) (hn : n.Relabelled n') :
    n'.Uncluttered := by
  induction h generalizing n' with
  | mk here _ ih =>
    refine .mk ⟨fun hds' => ?_, fun hms' => ?_⟩ fun m' hm' => ?_
    · obtain ⟨ds, hds, hall⟩ := hn.members? hds'
      exact (here.functions hds).of_map_eq (hall.map_eq Decl.commented?_relabelled)
    · obtain ⟨ms, hms, hall⟩ := hn.classMembers? hms'
      exact (here.methods hms).of_map_eq (hall.map_eq Member.commented?_relabelled)
    · obtain ⟨i, hi, rfl⟩ := List.getElem_of_mem hm'
      have hlen := hn.children.length_eq
      exact ih _ (List.getElem_mem (hlen ▸ hi)) (hn.children.get (hlen ▸ hi) hi)

/-! ## Names for literals -/

/-- What is around a node, as far as it matters for a literal. -/
structure Setting where
  /-- A conditional type is around. -/
  conditional : Bool
  /-- The nearest node that is not a type gives its type a name. -/
  named : Bool

def Setting.inside (σ : Setting) (n : Node) : Setting :=
  ⟨σ.conditional || n.isConditional, if n.isTy then σ.named else n.namesItsType⟩

/-- What is around where a scope is entered. -/
def Scope.setting (s : Scope) : Setting :=
  ⟨s.stack.any Node.isConditional, (s.stack.find? fun n => !n.isTy).any Node.namesItsType⟩

theorem Scope.setting_enter (s : Scope) (n : Node) : (s.enter n).setting = s.setting.inside n := by
  have hstack : (s.enter n).stack = n :: s.stack := rfl
  rw [setting, hstack, List.any_cons, Bool.or_comm, List.find?_cons]
  cases hn : n.isTy <;> simp [Setting.inside, setting, hn]

theorem Scope.isExtractable_enter (s : Scope) {n : Node} (hn : n.isConditional = false) :
    (s.enter n).isExtractable = (!s.setting.conditional && s.setting.named) := by
  have hstack : (s.enter n).stack = n :: s.stack := rfl
  rw [isExtractable, hstack, List.any_cons, hn, Bool.false_or]
  rfl

theorem Setting.inside_eq {n : Node} (h : n'.traits = n.traits) (σ : Setting) :
    σ.inside n' = σ.inside n := by
  obtain ⟨hty, hcond, -, -, hnames, -, -⟩ := Traits.mk.inj h
  rw [inside, inside, hty, hcond, hnames]

/-- A literal gets no name whose members all say how to index, or one of which is a rule. -/
def Node.staysLiteral (n : Node) : Bool :=
  n.children.all Node.isDict || n.children.any Node.isMapped

/-- Every literal in the node that gets a name has one, except in the parts that are spared. -/
inductive Node.NamedBut (spared : Node → Node → Prop) : Setting → Node → Prop
  | mk {σ : Setting} {n : Node} (here : n.isObject = true → σ.conditional = false → σ.named = true →
      n.staysLiteral = true)
    (inside : ∀ m ∈ n.children, ¬ spared n m → NamedBut spared (σ.inside n) m) : NamedBut spared σ n

/-- Every literal in the node that gets a name has one, except in type parameters. -/
abbrev Node.Named : Setting → Node → Prop := Node.NamedBut fun _ m => m.isTypeParam = true

theorem Node.staysLiteral_iff :
    (Node.ty (.object i ms)).staysLiteral = true ↔ Member.StayLiteral ms := by
  have hdict : isDict ∘ member = Member.isDict := rfl
  have hmpd : isMapped ∘ member = Member.isMapped := rfl
  rw [staysLiteral, children, childrenOfTy, List.all_map, List.any_map, hdict, hmpd,
    Bool.or_eq_true, Member.StayLiteral, ← or_assoc]
  refine or_congr ?_ Iff.rfl
  cases ms with
  | nil => simp
  | cons m ms => simp [Member.isDictionary]

section
variable {spared : Node → Node → Prop} {σ : Setting} {n : Node}

theorem Node.NamedBut.here (h : n.NamedBut spared σ) (hn : n.isObject = true)
    (hcond : σ.conditional = false) (hnamed : σ.named = true) : n.staysLiteral = true := by
  cases h with
  | mk here _ => exact here hn hcond hnamed

theorem Node.NamedBut.child (h : n.NamedBut spared σ) (hm : m ∈ n.children) (hparam : ¬ spared n m) :
    m.NamedBut spared (σ.inside n) := by
  cases h with
  | mk _ inside => exact inside m hm hparam

/-- What is around a node that is not a type matters only in so far as there is a conditional type. -/
theorem Node.NamedBut.elsewhere (h : n.NamedBut spared σ) (hn : n.isTy = false)
    (hcond : τ.conditional = false → σ.conditional = false) : n.NamedBut spared τ := by
  have key : ∀ {σ τ : Setting} {n : Node}, n.NamedBut spared σ →
      (τ.conditional = false → σ.conditional = false) →
      (n.isTy = true → τ.named = true → σ.named = true) → n.NamedBut spared τ := by
    intro σ τ n h
    induction h generalizing τ with
    | @mk σ n here _ ih =>
      intro hcond hnamed
      refine .mk (fun hobj hc hτ => here hobj (hcond hc) (hnamed ?_ hτ)) fun m hm hparam =>
        ih m hm hparam ?_ ?_
      · cases n with
        | ty t => rfl
        | _ => cases hobj
      · simp only [Setting.inside, Bool.or_eq_false_iff]
        exact fun h => ⟨hcond h.1, h.2⟩
      · intro _
        cases hn : n.isTy with
        | true => simpa [Setting.inside, hn] using hnamed hn
        | false => simp [Setting.inside, hn]
  exact key h hcond fun hty => nomatch hn.symm.trans hty

theorem Node.NamedBut.transfer (htr : ∀ {n n'}, T n n' → n'.traits = n.traits)
    (hch : ∀ {n n'}, T n n' → List.Forall₂ T n.children n'.children)
    (hspd : ∀ {n n' m m'}, T n n' → T m m' → spared n m → spared n' m') (h : n.NamedBut spared σ)
    (hn : T n n') : n'.NamedBut spared σ := by
  induction h generalizing n' with
  | @mk σ n here _ ih =>
    have hall := hch hn
    obtain ⟨-, -, hobject, -, -, -, -⟩ := Traits.mk.inj (htr hn)
    refine .mk (fun hobj hcond hnamed => ?_) fun m' hm' hparam => ?_
    · have hdict := hall.all_eq (p := isDict) fun hm => (Traits.mk.inj (htr hm)).2.2.2.2.2.1.symm
      have hmpd := hall.any_eq (p := isMapped) fun hm => (Traits.mk.inj (htr hm)).2.2.2.2.2.2.symm
      rw [staysLiteral, ← hdict, ← hmpd]
      exact here (hobject ▸ hobj) hcond hnamed
    · obtain ⟨i, hi, rfl⟩ := List.getElem_of_mem hm'
      have hlen := hall.length_eq
      have hm := hall.get (hlen ▸ hi) hi
      rw [Setting.inside_eq (htr hn)]
      exact ih _ (List.getElem_mem (hlen ▸ hi)) (fun h => hparam (hspd hn hm h)) hm

end

theorem Node.Named.transfer (htr : ∀ {n n'}, T n n' → n'.traits = n.traits)
    (hch : ∀ {n n'}, T n n' → List.Forall₂ T n.children n'.children) {σ : Setting} {n : Node}
    (h : n.Named σ) (hn : T n n') : n'.Named σ :=
  NamedBut.transfer htr hch
    (fun _ hm hparam => (Traits.mk.inj (htr hm)).2.2.2.1.trans hparam) h hn

/-- A scope of the file is inside a part that is spared, or the literals in what was entered last have
names. -/
theorem Root.Inside.namedBut {root : Root} {f : File} {spared : Node → Node → Prop}
    (h : (Node.file f).NamedBut spared (Scope.ofRoot root).setting) (hs : root.Inside f s) :
    (∃ above m n below, s.stack = above ++ m :: n :: below ∧ spared n m) ∨
      ∃ (s₀ : Scope) (n : Node), s = s₀.enter n ∧ n.NamedBut spared s₀.setting := by
  induction hs with
  | file => exact .inr ⟨_, _, rfl, h⟩
  | @child s n m hs hn hm ih =>
    have hstack : (s.enter m).stack = m :: s.stack := rfl
    rcases ih with ⟨above, m', n', below, habove, hspd⟩ | ⟨s₀, n₀, rfl, hnamed⟩
    · exact .inl ⟨m :: above, m', n', below, by rw [hstack, habove]; rfl, hspd⟩
    · cases hn
      by_cases hspd : spared n₀ m
      · exact .inl ⟨[], m, n₀, s₀.stack, rfl, hspd⟩
      · exact .inr ⟨_, m, rfl, Scope.setting_enter s₀ n₀ ▸ hnamed.child hm hspd⟩

/-- A literal that gets a name is inside a part that is spared, or has one. -/
theorem Root.At.stayLiteral {root : Root} {f : File} {spared : Node → Node → Prop}
    (h : (Node.file f).NamedBut spared (Scope.ofRoot root).setting)
    (hs : root.At f s (.ty (.object i ms))) (hext : s.isExtractable = true) :
    (∃ above m n below, s.stack = above ++ m :: n :: below ∧ spared n m) ∨ Member.StayLiteral ms := by
  refine (hs.inside.namedBut h).imp_right ?_
  rintro ⟨s₀, n, rfl, hnamed⟩
  cases hs.current
  rw [Scope.isExtractable_enter _ rfl, Bool.and_eq_true, Bool.not_eq_true'] at hext
  exact Node.staysLiteral_iff.1 (hnamed.here rfl hext.1 hext.2)

section
variable {spared : Node → Node → Prop}

/-- In the interfaces that wait every literal that gets a name has one, except in the parts that are
spared. -/
def PendingByScope.NamedBut (spared : Node → Node → Prop) (pending : PendingByScope) : Prop :=
  ∀ c, ∀ i ∈ pending.waiting c, (Node.decl (.iface i)).NamedBut spared ⟨false, false⟩

variable {σ : Setting}

/-- The interface for a literal has names where the literal has them, if its type parameters are spared. -/
theorem InterfaceDecl.named {i : InterfaceDecl} (hpars : i.inheritance = [])
    (hps : ∀ p ∈ i.tparams, spared (.decl (.iface i)) (.tparam p)) (hcond : σ.conditional = false)
    (hms : ∀ m ∈ i.members, (Node.member m).NamedBut spared σ) :
    (Node.decl (.iface i)).NamedBut spared τ := by
  refine .mk nofun fun m hm hparam => ?_
  rw [Node.children, Node.childrenOfDecl, hpars, List.map_nil, List.append_nil] at hm
  rcases List.mem_append.1 hm with hm | hm
  · obtain ⟨p, hp, rfl⟩ := List.mem_map.1 hm
    exact absurd (hps p hp) hparam
  · obtain ⟨x, hx, rfl⟩ := List.mem_map.1 hm
    exact (hms x hx).elsewhere rfl fun _ => hcond

theorem placeLiteral_named (stem : String) (s : Scope) (comments : Comments) {tparams : List TypeParam}
    (hps : ∀ {i : InterfaceDecl}, i.info.id = 0 → ∀ p ∈ tparams,
      spared (.decl (.iface i)) (.tparam p)) (hcond : σ.conditional = false)
    (hms : ∀ m ∈ ms, (Node.member m).NamedBut spared σ) :
    (keepingPending (PendingByScope.NamedBut spared)).ends () (placeLiteral stem s comments ms tparams)
      fun _ _ => True := by
  refine placeLiteral_keeps stem s comments ms tparams fun hpend _ _ hi c j hj => ?_
  obtain ⟨x, p, rfl⟩ := hi
  obtain hj | ⟨-, rfl⟩ := PendingByScope.mem_waiting_add hj
  · exact hpend c j hj
  · exact InterfaceDecl.named rfl (hps rfl) hcond hms

theorem Placement.named_reference (s : Scope) (t : Ty) (p : Placement) (σ : Setting) :
    (Node.ty (p.reference s t)).NamedBut spared σ := by
  refine .mk (fun hobj => ?_) fun m hm _ => ?_
  · cases hobj
  · rw [reference, Node.children, Node.childrenOfTy, List.map_map] at hm
    obtain ⟨q, -, rfl⟩ := List.mem_map.1 hm
    refine .mk (fun hobj => ?_) fun _ hm _ => ?_
    · cases hobj
    · cases hm

/-- What is known of a node when its parts are done: the literals in it have names. -/
structure Node.NamedInside (spared : Node → Node → Prop) (s : Scope) (n n' : Node) : Prop where
  traits : n'.traits = n.traits
  inside : ∀ m ∈ n'.children, m.NamedBut spared (s.enter n).setting

variable {n : Node}

theorem Node.NamedInside.child (h : n.NamedInside spared s n') (hm : m ∈ n'.children) :
    m.NamedBut spared (s.setting.inside n') := by
  rw [Setting.inside_eq h.traits, ← Scope.setting_enter]
  exact h.inside m hm

theorem Node.NamedInside.named (h : n.NamedInside spared s n') (hn : n'.isObject = false) :
    n'.NamedBut spared s.setting :=
  .mk (fun hobj => nomatch hn.symm.trans hobj) fun _ hm _ => h.child hm

/-- In the interfaces that are made for literals of the file the type parameters are spared. -/
def Root.Spares (root : Root) (f : File) (spared : Node → Node → Prop) : Prop :=
  ∀ {s : Scope} {t : Ty} {p : TypeParam} {i : InterfaceDecl}, root.Inside f s →
    s.setting.conditional = false → p ∈ s.paramsOf t → i.info.id = 0 →
    spared (.decl (.iface i)) (.tparam p)

variable {root : Root} {f : File}

theorem Node.NamedInside.named_of_kept (hs : root.Inside f (s.enter (.ty t)))
    (h : (Node.ty t).NamedInside spared s (.ty t'))
    (hkept : ∀ {info ms}, t' = .object info ms → (s.enter (.ty t)).isExtractable = true →
      (s.enter (.ty t)).containers ≠ [] → Member.StayLiteral ms) :
    (Node.ty t').NamedBut spared s.setting := by
  refine .mk (fun hobj hc hnamed => ?_) fun _ hm _ => h.child hm
  cases t' with
  | object info ms =>
    have hcond : (Node.ty t).isConditional = false := (Traits.mk.inj h.traits).2.1.symm
    have hext : (s.enter (.ty t)).isExtractable = true := by
      rw [Scope.isExtractable_enter _ hcond, hc, hnamed]
      rfl
    exact Node.staysLiteral_iff.2 (hkept rfl hext hs.containers_ne_nil)
  | _ => cases hobj

theorem extractInterface_named (hspar : root.Spares f spared) (stem : String)
    (hs : root.Inside f (s.enter (.ty t))) (h : (Node.ty t).NamedInside spared s (.ty t')) :
    (keepingPending (PendingByScope.NamedBut spared)).ends () (extractInterface stem (s.enter (.ty t)) t')
      fun r _ => (Node.ty (r.getD t')).NamedBut spared s.setting := by
  refine extractInterface_ends (h.named_of_kept hs) fun info ms heq hext _ => ?_
  cases heq
  have hcond : (Node.ty t).isConditional = false := (Traits.mk.inj h.traits).2.1.symm
  rw [Scope.isExtractable_enter _ hcond, Bool.and_eq_true, Bool.not_eq_true'] at hext
  have hin : (s.enter (.ty t)).setting.conditional = false := by
    rw [Scope.setting_enter, Setting.inside, hext.1, hcond]
    rfl
  have hms : ∀ m ∈ ms, (Node.member m).NamedBut spared (s.enter (.ty t)).setting := fun m hm =>
    h.inside _ (List.mem_map_of_mem hm)
  exact (keepingPending _).imp (placeLiteral_named stem _ _ (fun hi _ hp => hspar hs hin hp hi) hin hms)
    fun p _ _ => p.named_reference _ _ _

theorem emitInterfaces_named (s : Scope) (hds : ∀ d ∈ ds, (Node.decl d).NamedBut spared σ) :
    (keepingPending (PendingByScope.NamedBut spared)).ends () (emitInterfaces s ds) fun r _ =>
      ∀ d ∈ r.getD ds, (Node.decl d).NamedBut spared σ := by
  refine (keepingPending _).imp (emitInterfaces_keeps s ds fun h c i hi =>
    h c i (PendingByScope.mem_waiting_of_without hi)) ?_
  rintro r _ ⟨pending, hpend, hr⟩
  rw [hr]
  exact List.forall_mem_append.2 ⟨hds, List.forall_mem_map.2 fun i hi =>
    (hpend s i hi).elsewhere rfl fun _ => rfl⟩

/-- **Every literal that gets a name has one**, wherever the scope of the library is entered, except in
what is spared. -/
theorem extractInterfaces_namedBut (hspar : root.Spares f spared) (stem : String) :
    succeeding.ends () (extractInterfaces stem (.ofRoot root) f) fun e _ =>
      (Node.file e.value).NamedBut spared (Scope.ofRoot root).setting := by
  let L := keepingPending (PendingByScope.NamedBut spared)
  have hh : (interfaceHooks stem).Builds L (fun s n => root.Inside f (s.enter n)) (fun _ _ p => p = none)
      (fun _ _ s n n' _ => n.NamedInside spared s n') fun _ _ s _ n' _ => n'.NamedBut spared s.setting :=
    { idle := {}
      child := Root.Inside.within
      mono := fun _ _ h => h
      plain := fun _ _ _ h => ⟨h.alike.traits_eq, fun m hm => h.parts.forall_mem m hm⟩
      enterFile := fun _ => .pure rfl
      enterDecl := fun _ => .pure rfl
      newMembers := fun {w w' s n ds ds' b} _ _ _ hw => by
        have hds' := List.forall_mem_map.1 hw.forall_mem
        refine L.imp (emitInterfaces_named (s.enter n) hds') fun r _ hr n' hn' => ?_
        obtain ⟨htr, hms', -⟩ := Node.withMembers?_keeps hn'
        refine ⟨htr, fun m hm => ?_⟩
        rw [Node.children_of_members? hms'] at hm
        exact List.forall_mem_map.2 hr m hm
      newClassMembers := fun {w w' s n n' ms b} _ _ h hms => by
        refine .pure fun hn'' => ?_
        cases Node.withClassMembers?_eq hms hn''
        exact ⟨h.alike.traits_eq, fun m hm => h.parts.forall_mem m hm⟩
      leaveFile := fun _ hp h => by
        subst hp
        exact h.named rfl
      leaveDecl := fun _ hp h => by
        subst hp
        exact .pure (h.named rfl)
      leaveTy := fun hs h => extractInterface_named hspar stem hs h
      keep := fun {w w' s n n' b} _ hn h => by
        refine h.named ((Traits.mk.inj h.traits).2.2.1.trans ?_)
        cases n with
        | ty t => cases hn
        | _ => rfl }
  exact extractInterfaces_succeeding (walkFile_builds hh f .file ()) fun _ _ h => by cases h

end

end Ambient
