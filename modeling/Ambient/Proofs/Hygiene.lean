import Ambient.Proofs.Extracted

/-!
# Names in extracted interfaces

The names in a literal keep their meaning in the interface that takes its place
(`extraction_keeps_meanings`).
-/

namespace Ambient

/-! ## Names in a literal -/

/-- The names of the references in a type and in the bounds and defaults of the type parameters. -/
def Ty.mentionsWith (t : Ty) (ps : List TypeParam) : List QIdent :=
  t.mentions ++ (ps.flatMap TypeParam.limits).flatMap Ty.mentions

theorem mem_distinct {α : Type} [BEq α] [LawfulBEq α] {x : α} {xs : List α} :
    x ∈ distinct xs ↔ x ∈ xs := by
  induction xs with
  | nil => rfl
  | cons y ys ih =>
    rw [distinct, List.mem_cons, List.mem_cons, List.mem_filter, ih]
    by_cases h : x = y
    · simp [h]
    · simp [h, Ne.symm h]

variable {f : File} {ps : List TypeParam} {root : Root} {s : Scope} {u t : Ty} {p : TypeParam}

theorem TypeParam.mem_parts : u ∈ p.parts ↔ ∃ t ∈ p.limits, u ∈ t.parts := by
  obtain ⟨i, x, b, d⟩ := p
  cases b <;> cases d <;> simp [TypeParam.parts, Ty.partsOption, limits, or_comm]

theorem TypeParam.mem_partsList : u ∈ TypeParam.partsList ps ↔ ∃ p ∈ ps, u ∈ p.parts := by
  induction ps with
  | nil => simp [TypeParam.partsList]
  | cons p ps ih => simp [TypeParam.partsList, ih]

theorem mem_namesMentioned {info : NodeInfo} {ms : List Member} {q : QIdent} :
    q ∈ namesMentioned ps ms ↔
      q ∈ (Ty.object info ms).mentionsWith ps ∧ ∀ p ∈ ps, q ≠ [p.name] := by
  have hnames : q ∈ (Member.partsList ms ++ TypeParam.partsList ps).filterMap Ty.refName? ↔
      q ∈ (Ty.object info ms).mentionsWith ps := by
    simp only [Ty.mentionsWith, Ty.mentions, Ty.parts, List.filterMap_append, List.mem_append,
      List.mem_filterMap, List.mem_flatMap, TypeParam.mem_partsList, TypeParam.mem_parts]
    grind [Ty.refName?]
  have hown : (!(QIdent.single? q).any fun x => ps.any fun p => p.name == x) = true ↔
      ∀ p ∈ ps, q ≠ [p.name] := by
    rcases q with _ | ⟨x, _ | ⟨y, q⟩⟩
    · simp [QIdent.single?]
    · grind [QIdent.single?]
    · simp [QIdent.single?]
  rw [namesMentioned, mem_distinct, List.mem_filter, hnames, hown]

/-! ## The interface in place of the literal -/

/-- What a name in a literal at `s` means in the interface that takes its place. -/
structure KeepsMeanings (s : Scope) (t : Ty) (p : Placement) : Prop where
  /-- The interface goes into a container around, and says what the literal says. -/
  container : ∃ outer, s.containers = p.inner ++ p.container :: outer
  literal : ∃ info ms, t = .object info ms ∧ (p.interface.members == ms) = true
  /-- A type parameter in force is one of the interface. -/
  param : ∀ x, [x] ∈ t.mentionsWith (s.paramsOf t) → (s.tparam? x).isSome = true →
    x ∈ p.interface.tparams.map (·.name)
  /-- The name of a reference that is not abstract denotes the same declarations in the container. If
  that is the innermost one, then no import or export in it may look up that name. -/
  reference : ∀ q ∈ t.mentionsWith (s.paramsOf t), s.isAbstract q = false →
    (p.inner = [] → ∀ d ∈ p.container.members, q ∉ d.lookedUp) → SameMeaning s p.container q
  /-- In the innermost container this holds of every name, whether it is in a reference or not. -/
  innermost : p.inner = [] → ∀ q, s.isAbstract q = false →
    (∀ d ∈ p.container.members, q ∉ d.lookedUp) → s.meaning q = p.container.meaning q

/-- The type parameters that a literal needs are closed under their bounds and defaults. -/
theorem Scope.Entered.mem_names_paramsOf (h : s.Entered) {x : Ident}
    (hx : [x] ∈ t.mentionsWith (s.paramsOf t)) (hp : (s.tparam? x).isSome = true) :
    x ∈ (s.paramsOf t).map (·.name) := by
  obtain ⟨p, hp⟩ := Option.isSome_iff_exists.1 hp
  refine List.mem_map.2 ⟨p, ?_, h.tparam?_name hp⟩
  rcases List.mem_append.1 hx with hx | hx
  · exact h.mem_paramsOf_of_mentioned hx hp
  · obtain ⟨u, hu, hx⟩ := List.mem_flatMap.1 hx
    obtain ⟨p', hp', hu⟩ := List.mem_flatMap.1 hu
    exact h.mem_paramsOf_of_limit hp' hu hx hp

theorem Scope.Entered.isAbstract_of_mem_paramsOf (h : s.Entered) (hp : p ∈ s.paramsOf t) :
    s.isAbstract [p.name] = true := by
  obtain ⟨x, -, hx⟩ := h.mem_paramsOf.1 hp
  rw [Scope.isAbstract, h.tparam?_name hx, hx]
  rfl

theorem Settled.keepsMeanings (hnum : root.Numbered f) {later : Record} {p : Placement}
    (h : Settled root f later s t p) : KeepsMeanings s t p := by
  have hent := h.inside.enters.entered
  obtain ⟨outer, houter⟩ := h.standsFor.containers
  obtain ⟨info, ms, rfl, hms⟩ := h.standsFor.literal
  have hinn : p.inner = [] → ∀ q, s.isAbstract q = false →
      (∀ d ∈ p.container.members, q ∉ d.lookedUp) → s.meaning q = p.container.meaning q := by
    intro hinner q hq hup
    rw [hinner, List.nil_append] at houter
    exact meaning_innermost hnum.territory h.inside.enters hent houter hq hup
  refine ⟨⟨outer, houter⟩, ⟨info, ms, rfl, hms⟩, fun x hx hp => ?_, fun q hq habs hup => ?_,
    hinn⟩
  · rw [TypeParam.names_of_beq h.standsFor.sameParams]
    exact hent.mem_names_paramsOf hx hp
  · by_cases hinner : p.inner = []
    · rw [SameMeaning, hinn hinner q habs (hup hinner)]
    · refine h.standsFor.meanings hinner q (mem_namesMentioned.2 ⟨hq, ?_⟩)
      rintro tp htp rfl
      rw [hent.isAbstract_of_mem_paramsOf htp] at habs
      cases habs

/-! ## The whole run -/

theorem Extracted.emitted {g : File} {log : Record} (h : Extracted root f g log) {p : Placement}
    (hmem : .replaced s t p ∈ log) :
    ∃ c, root.Beside f g p.container c ∧ .iface p.interface ∈ c.members := by
  obtain ⟨later, earlier, hlog⟩ := List.append_of_mem hmem
  have hset := h.settled hlog
  have hcont := hset.standsFor.mem_containers (List.mem_append_right _ (.head _))
  obtain ⟨outer, houter⟩ := hset.standsFor.containers
  obtain ⟨_, -, hall⟩ := h.counterpart hset.inside hcont
  rw [Scope.containers_of_append houter] at hall
  obtain ⟨c, _, ⟨hbes, ds, is, hmems, hgiven, -⟩, -, -⟩ := List.forall₂_cons_left_iff.1 hall
  obtain ⟨is', hnext, hif, -⟩ := hset.given
  obtain rfl := h.given_eq hlog hnext hgiven
  refine ⟨c, hbes, ?_⟩
  rw [hmems]
  exact List.mem_append_right _ (List.mem_map_of_mem hif)

/-- **The names in a literal keep their meaning in the interface that takes its place.** The step does
what it does with a record; for each literal that is replaced, the interface is found in the container
that it was placed in, and there the names of the literal mean what they meant before. -/
theorem extraction_keeps_meanings (lib : Library) (pedantic remember : Bool) (stem : String) :
    (Pass.extractInterfaces stem).runAnew (lib.root pedantic) remember lib.file =
        (recordAnew stem (lib.root pedantic) remember lib.file).map (·.1) ∧
      ∀ e log, recordAnew stem (lib.root pedantic) remember lib.file = .ok (e, log) →
        ∀ s t p, .replaced s t p ∈ log → KeepsMeanings s t p ∧
          ∃ c, (lib.root pedantic).Beside (lib.file.number (lib.root pedantic).deps.nextId).1 e.value
            p.container c ∧ .iface p.interface ∈ c.members := by
  have hdeps : (lib.root pedantic).deps.InOrder := Dependencies.inOrder_ofFiles lib.deps
  refine ⟨runAnew_eq_recordAnew hdeps stem remember lib.file, fun e log hrun s t p hmem => ?_⟩
  have hextracted := recordAnew_extracted hdeps stem remember lib.file hrun
  obtain ⟨later, earlier, hlog⟩ := List.append_of_mem hmem
  exact ⟨(hextracted.settled hlog).keepsMeanings hextracted.numbered, hextracted.emitted hmem⟩

def Event.isReplaced : Event → Bool
  | .replaced _ _ _ => true
  | .emitted _ _ => false

/-- A generic interface in a namespace, with a literal that mentions the type parameter and another
interface of the namespace. -/
def literalInNamespace : Library where
  name := "lib"
  deps := []
  file :=
    { info := {}
      directives := []
      codePath := .noPath
      members := [.space ⟨{}, true, "N", .noPath, .zero⟩ [
        .iface ⟨{}, true, "B", [], [], [], .noPath⟩,
        .iface ⟨{}, true, "I", [⟨{}, "T", none, none⟩], [],
          [.property ⟨{}, .default, "p",
            some (.object {} [.property ⟨{}, .default, "t", some (.ref {} ["T"] []), none, false, false⟩,
              .property ⟨{}, .default, "b", some (.ref {} ["B"] []), none, false, false⟩]),
            none, false, false⟩], .noPath⟩]] }

theorem extraction_keeps_meanings_in_namespace :
    ∃ e log s t p, recordAnew "Anon" (literalInNamespace.root false) false literalInNamespace.file =
        .ok (e, log) ∧ .replaced s t p ∈ log ∧ KeepsMeanings s t p := by
  have hrun : ((recordAnew "Anon" (literalInNamespace.root false) false
      literalInNamespace.file).toOption.any fun r => r.2.any Event.isReplaced) = true := by
    decide +kernel
  cases h : recordAnew "Anon" (literalInNamespace.root false) false literalInNamespace.file with
  | error e => rw [h] at hrun; cases hrun
  | ok r =>
    obtain ⟨e, log⟩ := r
    rw [h] at hrun
    obtain ⟨event, hmem, hevent⟩ := List.any_eq_true.1 hrun
    cases event with
    | emitted c is => cases hevent
    | replaced s t p =>
      have hkeeps := (extraction_keeps_meanings literalInNamespace false false "Anon").2 e log h s t p hmem
      exact ⟨e, log, s, t, p, rfl, hmem, hkeeps.1⟩

end Ambient
