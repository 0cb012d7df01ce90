import Ambient.Proofs.Failures
import Ambient.Proofs.Introduced
import Ambient.Proofs.Stable

/-!
# Literals that a run leaves

The interfaces that a run adds are generic over type parameters of the given file, and these are copied as
they stood there: what the run makes of a type parameter where it stands is not made of its copies. So a
literal in the bound or default of such a type parameter is left in the copy.

* `Root.spares_copied`: nothing else is left, by `extractInterfaces_namedBut`.
* `extractInterfaces_unchanged`: a run that changes nothing had nothing to extract.
* `extractInterfaces_twice`: so a second run changes nothing if and only if no such literal is left.
-/

namespace Ambient

/-! ## Induction over trees -/

theorem Node.induction_inside {P : Node → Prop} (h : ∀ n : Node, (∀ m ∈ n.children, P m) → P n)
    (n : Node) : P n := by
  have hall : ∀ (k : Kind) (a : k.Of), ∀ n ∈ k.nodes a, P n := by
    intro k a
    induction k, a using Kind.induct with
    | step k a ih =>
      have hinner : ∀ m ∈ k.inner a, P m := k.nodes_form a ▸ Form.all_nodes.1 ih
      cases k with
      | expr => exact hinner
      | _ => exact List.forall_mem_singleton.2 (h _ hinner)
  cases n with
  | file f => exact hall .file f _ (.head _)
  | decl d => exact hall .decl d _ (.head _)
  | member m => exact hall .member m _ (.head _)
  | ty t => exact hall .ty t _ (.head _)
  | sig s => exact hall .sig s _ (.head _)
  | param p => exact hall .param p _ (.head _)
  | tparam p => exact hall .tparam p _ (.head _)

/-! ## What is copied -/

/-- `n` is an interface that a run adds, and `m` a type parameter of the file `f`, with no conditional type
around it. -/
structure Root.Copied (root : Root) (f : File) (n m : Node) : Prop where
  added : ∃ i : InterfaceDecl, n = .decl (.iface i) ∧ i.info.id = 0
  param : ∃ p s, m = .tparam p ∧ root.At f s (.tparam p) ∧ s.setting.conditional = false

variable {n : Node} {s : Scope}

section
variable {root : Root} {f : File}

theorem Scope.conditional_of_enter (h : (s.enter n).setting.conditional = false) :
    s.setting.conditional = false := by
  rw [Scope.setting_enter, Setting.inside, Bool.or_eq_false_iff] at h
  exact h.1

theorem Root.At.tparam (hs : root.At f s n) (hcond : s.setting.conditional = false) {p : TypeParam}
    (hp : p ∈ n.tparams) : ∃ s', root.At f s' (.tparam p) ∧ s'.setting.conditional = false := by
  have henter : ∀ {s : Scope} {m : Node}, s.setting.conditional = false → m.isConditional = false →
      (s.enter m).setting.conditional = false := by
    intro s m hs hm
    rw [Scope.setting_enter, Setting.inside, hs, hm]
    rfl
  rcases Node.mem_tparams hp with hp | ⟨sig, hsig, hp⟩
  · exact ⟨_, ⟨.child hs.inside hs.current hp, rfl⟩, henter hcond rfl⟩
  · have hin : root.Inside f (s.enter (.sig sig)) := .child hs.inside hs.current hsig
    exact ⟨_, ⟨.child hin rfl hp, rfl⟩, henter (henter hcond rfl) rfl⟩

theorem Root.Inside.tparam (hs : root.Inside f s) (hcond : s.setting.conditional = false) {x : Ident}
    {p : TypeParam} (hp : (x, p) ∈ s.tparams) :
    ∃ s', root.At f s' (.tparam p) ∧ s'.setting.conditional = false := by
  induction hs with
  | file =>
    rcases Scope.mem_tparams_enter hp with hp | hp
    · cases hp
    · cases hp
  | child hs hn hm ih =>
    rcases Scope.mem_tparams_enter hp with hp | hp
    · exact Root.At.tparam ⟨.child hs hn hm, rfl⟩ hcond hp
    · exact ih (Scope.conditional_of_enter hcond) hp

theorem Root.spares_copied (root : Root) (f : File) : root.Spares f (root.Copied f) := by
  intro s t p i hs hcond hp hi
  obtain ⟨x, -, hx⟩ := hs.enters.entered.mem_paramsOf.1 hp
  obtain ⟨s', hs', hcond'⟩ := hs.tparam hcond (mem_of_lookup hx)
  exact ⟨⟨i, rfl, hi⟩, p, s', rfl, hs', hcond'⟩

/-! ## What is left -/

/-- Every literal in the node that gets a name has one. -/
abbrev Node.NamedAll : Setting → Node → Prop := Node.NamedBut fun _ _ => False

/-- If literals have names in scopes of some kind, and entering a node does not lead out of them, then all
that is entered there has names. -/
theorem Root.namedAll_of_scopes {Q : Scope → Prop} (henter : ∀ {s n}, Q s → Q (s.enter n))
    (h : ∀ s i ms, root.At f s (.ty (.object i ms)) → s.isExtractable = true → Q s → Member.StayLiteral ms)
    (n : Node) (hs : root.Inside f (s.enter n)) (hQ : Q (s.enter n)) : n.NamedAll s.setting := by
  induction n using Node.induction_inside generalizing s with
  | h n ih =>
    refine .mk (fun hobj hcond hnamed => ?_) fun m hm _ => ?_
    · cases n with
      | ty t =>
        cases t with
        | object i ms =>
          refine Node.staysLiteral_iff.2 (h _ i ms ⟨hs, rfl⟩ ?_ hQ)
          rw [Scope.isExtractable_enter _ rfl, hcond, hnamed]
          rfl
        | _ => cases hobj
      | _ => cases hobj
    · exact Scope.setting_enter s n ▸ ih m hm (.child hs rfl hm) (henter hQ)

/-- Nothing is left in a file if and only if every literal in it that gets a name has one. -/
theorem Root.nothingLeft_iff (root : Root) (f : File) :
    root.NothingLeft f ↔ (Node.file f).NamedAll (Scope.ofRoot root).setting := by
  constructor
  · intro h
    exact Root.namedAll_of_scopes (Q := fun _ => True) (fun _ => trivial)
      (fun s i ms hs hext _ => h s i ms hs hext) _ .file trivial
  · intro h s i ms hs hext
    refine (hs.stayLiteral h hext).resolve_left ?_
    rintro ⟨-, -, -, -, -, hspd⟩
    exact hspd

/-- No literal that gets a name is left in a type parameter of the file. -/
def Root.ParamsNamed (root : Root) (f : File) : Prop :=
  ∀ s i ms, root.At f s (.ty (.object i ms)) → s.isExtractable = true → s.inTypeParam = true →
    Member.StayLiteral ms

theorem Node.NamedBut.all {spared : Node → Node → Prop} {σ : Setting} (h : n.NamedBut spared σ)
    (hspd : ∀ {n m}, spared n m → m.isTy = false ∧
      ∃ τ : Setting, τ.conditional = false ∧ m.NamedAll τ) : n.NamedAll σ := by
  induction h with
  | @mk σ n here _ ih =>
    refine .mk here fun m hm _ => ?_
    by_cases hm' : spared n m
    · obtain ⟨hty, τ, hcond, hnamed⟩ := hspd hm'
      exact hnamed.elsewhere hty fun _ => hcond
    · exact ih m hm hm'

theorem Root.ParamsNamed.copied (h : root.ParamsNamed f) {m : Node} (hm : root.Copied f n m) :
    m.isTy = false ∧ ∃ τ : Setting, τ.conditional = false ∧ m.NamedAll τ := by
  obtain ⟨-, p, s, rfl, hs, hcond⟩ := hm
  refine ⟨rfl, ?_⟩
  obtain ⟨hin, hcur⟩ := hs
  cases hin with
  | file => cases hcur
  | @child s₀ n₀ m₀ hs₀ hn₀ hm₀ =>
    cases hcur
    refine ⟨s₀.setting, Scope.conditional_of_enter hcond, ?_⟩
    refine Root.namedAll_of_scopes (Q := fun s => s.inTypeParam = true) (fun {s n} hs => ?_) h _
      (.child hs₀ hn₀ hm₀) rfl
    have hstack : (s.enter n).stack = n :: s.stack := rfl
    rw [Scope.inTypeParam, hstack, List.any_cons, ← Scope.inTypeParam, hs, Bool.or_true]

/-! ## A run that changes nothing -/

theorem Walked.unchanged {P : Node → Prop} {ns ns' : List Node} {b : Bool}
    (h : Walked (fun n n' b => b = false → n' = n ∧ P n) ns ns' b) (hb : b = false) :
    ns' = ns ∧ ∀ n ∈ ns, P n := by
  induction h with
  | nil => exact ⟨rfl, List.forall_mem_nil _⟩
  | cons hn _ ih =>
    rw [Bool.or_eq_false_iff] at hb
    obtain ⟨rfl, hP⟩ := hn hb.1
    obtain ⟨rfl, hPs⟩ := ih hb.2
    exact ⟨rfl, List.forall_mem_cons.2 ⟨hP, hPs⟩⟩

theorem extractInterface_unchanged (stem : String) {t : Ty} (hs : root.Inside f (s.enter (.ty t)))
    (h : ∀ m ∈ (Node.ty t).children, m.NamedAll (s.enter (.ty t)).setting) :
    (keepingPending fun _ => True).ends () (extractInterface stem (s.enter (.ty t)) t) fun r _ =>
      r = none → (Node.ty t).NamedAll s.setting := by
  have hin : (Node.ty t).NamedInside (fun _ _ => False) s (.ty t) := ⟨rfl, h⟩
  exact extractInterface_ends (fun hkept _ => hin.named_of_kept hs hkept)
    fun _ _ _ _ _ _ _ _ _ _ => ⟨trivial, fun hnone => by cases hnone⟩

/-- **A run that changes nothing had nothing to extract.** -/
theorem extractInterfaces_unchanged (root : Root) (f : File) (stem : String) :
    succeeding.ends () (extractInterfaces stem (.ofRoot root) f) fun e _ =>
      e.changed = false → root.NothingLeft f := by
  let L := keepingPending fun _ => True
  have hh : (interfaceHooks stem).Builds L (fun s n => root.Inside f (s.enter n)) (fun _ _ p => p = none)
      (fun _ _ s n n' b => b = false → n' = n ∧ ∀ m ∈ n.children, m.NamedAll (s.enter n).setting)
      fun _ _ s n n' b => b = false → n' = n ∧ n.NamedAll s.setting :=
    { idle := {}
      child := Root.Inside.within
      mono := fun _ _ h => h
      plain := fun _ _ _ h hb => by
        obtain ⟨hparts, hnamed⟩ := h.parts.unchanged hb
        exact ⟨h.alike.eq hparts, hnamed⟩
      enterFile := fun _ => .pure rfl
      enterDecl := fun _ => .pure rfl
      newMembers := fun {w w' s n ds ds' b} _ _ hds hw => by
        intro pending σ r _ _
        refine ⟨trivial, fun {n'} hn' hb => ?_⟩
        rw [Bool.or_eq_false_iff, Option.isSome_eq_false_iff, Option.isNone_iff_eq_none] at hb
        obtain ⟨hparts, hnamed⟩ := hw.unchanged hb.2
        rw [hb.1, Option.getD_none, (List.map_inj_right fun _ _ => Node.decl.inj).1 hparts] at hn'
        exact ⟨Node.withMembers?_eq hds hn', Node.children_of_members? hds ▸ hnamed⟩
      newClassMembers := fun {w w' s n n' ms b} _ _ h hms => by
        refine .pure fun hn'' hb => ?_
        obtain ⟨hparts, hnamed⟩ := h.parts.unchanged hb
        cases Node.withClassMembers?_eq hms hn''
        exact ⟨h.alike.eq hparts, hnamed⟩
      leaveFile := fun _ hp h hb => by
        subst hp
        obtain ⟨heq, hnamed⟩ := h hb
        cases heq
        exact ⟨rfl, .mk nofun fun m hm _ => Scope.setting_enter _ _ ▸ hnamed m hm⟩
      leaveDecl := fun _ hp h => by
        subst hp
        refine .pure fun hb => ?_
        obtain ⟨heq, hnamed⟩ := h hb
        cases heq
        exact ⟨rfl, .mk nofun fun m hm _ => Scope.setting_enter _ _ ▸ hnamed m hm⟩
      leaveTy := fun {w w' s t t' b} hs h => by
        cases b with
        | true =>
          intro pending σ r _ _
          exact ⟨trivial, fun hb => by simp at hb⟩
        | false =>
          obtain ⟨heq, hnamed⟩ := h rfl
          cases heq
          refine L.imp (extractInterface_unchanged stem hs hnamed) fun r _ hr hb => ?_
          rw [Bool.or_false, Option.isSome_eq_false_iff, Option.isNone_iff_eq_none] at hb
          exact ⟨by rw [hb, Option.getD_none], hr hb⟩
      keep := fun {w w' s n n' b} _ hn h hb => by
        obtain ⟨rfl, hnamed⟩ := h hb
        refine ⟨rfl, .mk (fun hobj => ?_) fun m hm _ => Scope.setting_enter _ _ ▸ hnamed m hm⟩
        cases n' with
        | ty t => cases hn
        | _ => cases hobj }
  exact succeeding.imp (extractInterfaces_succeeding (walkFile_builds hh f .file ()) trivial)
    fun _ _ h hunch => (root.nothingLeft_iff f).2 (h hunch).2

end

/-! ## A second run -/

theorem Root.nothingLeft_number (root : Root) (f : File) (n : NodeId) :
    root.NothingLeft (f.number n).1 ↔ root.NothingLeft f := by
  rw [root.nothingLeft_iff, root.nothingLeft_iff]
  constructor
  · intro h
    exact h.transfer (T := fun n n' => n'.Relabelled n) (fun h => h.traits_eq.symm)
      (fun h => h.children.flip) (fun _ _ h => h) (f.relabelled n)
  · intro h
    exact h.transfer Node.Relabelled.traits_eq Node.Relabelled.children (fun _ _ h => h) (f.relabelled n)

theorem Library.extractInterfaces_run (lib : Library) (pedantic remember : Bool) (stem : String) :
    ∃ e σ σ', (Pass.extractInterfaces stem).runAnew (lib.root pedantic) remember lib.file = .ok e ∧
      (extractInterfaces stem (.ofRoot (lib.root pedantic)) lib.numbered).run σ = .ok (e, σ') := by
  have hnum := lib.numbered_root pedantic
  obtain ⟨e, σ', hrun, -, -⟩ := extractInterfaces_ends hnum stem () _
    (Session.faithful_fresh hnum.territory.apart remember)
  have hanew : (Pass.extractInterfaces stem).runAnew (lib.root pedantic) remember lib.file =
      (extractInterfaces stem (.ofRoot (lib.root pedantic)) lib.numbered).run
        { memo := if remember then some {} else none } >>= fun r => pure r.1 := rfl
  exact ⟨e, _, σ', by rw [hanew, hrun]; rfl, hrun⟩

/-- **Extracting interfaces twice.** A run succeeds, and so does a second one on the file that the first one
gives. The second one changes nothing, and gives that file back, if and only if no literal is left in it that
gets a name. All that may be left stands in a type parameter that was copied to an interface which the first
run added. Nothing is left if no type parameter of the given file holds such a literal. -/
theorem extractInterfaces_twice (lib : Library) (pedantic remember remember' : Bool)
    (stem stem' : String) :
    ∃ e e', (Pass.extractInterfaces stem).runAnew (lib.root pedantic) remember lib.file = .ok e ∧
      (Pass.extractInterfaces stem').runAnew (lib.root pedantic) remember' e.value = .ok e' ∧
      (e'.changed = false ↔ (lib.root pedantic).NothingLeft e.value) ∧
      ((lib.root pedantic).NothingLeft e.value → e' = .keep (lib.withFile e.value).numbered) ∧
      (∀ s i ms, (lib.root pedantic).At e.value s (.ty (.object i ms)) → s.isExtractable = true →
        ¬ Member.StayLiteral ms → ∃ above m n below, s.stack = above ++ m :: n :: below ∧
          (lib.root pedantic).Copied lib.numbered n m) ∧
      ((lib.root pedantic).ParamsNamed lib.numbered → (lib.root pedantic).NothingLeft e.value) := by
  let root := lib.root pedantic
  obtain ⟨e, σ, σ', hanew, hrun⟩ := lib.extractInterfaces_run pedantic remember stem
  obtain ⟨e', τ, τ', hanew', hrun'⟩ :=
    (lib.withFile e.value).extractInterfaces_run pedantic remember' stem'
  have hleft : root.NothingLeft (lib.withFile e.value).numbered ↔ root.NothingLeft e.value :=
    root.nothingLeft_number e.value root.deps.nextId
  have hkeep : root.NothingLeft e.value → e' = .keep (lib.withFile e.value).numbered := by
    intro h
    have hkept := (hleft.2 h).extractInterfaces stem' τ
    exact (Prod.mk.inj (Except.ok.inj (hrun'.symm.trans hkept))).1
  have hnamed : (Node.file e.value).NamedBut (root.Copied lib.numbered) (Scope.ofRoot root).setting :=
    extractInterfaces_namedBut (root.spares_copied lib.numbered) stem σ _ hrun
  refine ⟨e, e', hanew, hanew', ⟨fun h => ?_, fun h => ?_⟩, hkeep, fun s i ms hs hext hms => ?_, fun h => ?_⟩
  · exact hleft.1 (extractInterfaces_unchanged root _ stem' τ _ hrun' h)
  · rw [hkeep h]
    rfl
  · exact (hs.stayLiteral hnamed hext).resolve_right hms
  · exact (root.nothingLeft_iff _).2 (hnamed.all h.copied)

/-- `function f<T extends (x: { a: number }) => void>(p: { t: T })`. -/
def boundLiteral : Library where
  name := "lib"
  deps := []
  file := File.ofMembers "lib"
    [.ofFunction "f" ⟨{}, [⟨{}, "T", some (.function (.ofParams
        [.ofType "x" (.ofMembers [.ofType "a" .number])] (some .void))), none⟩],
      [.ofType "p" (.ofMembers [.ofType "t" (.reference ["T"] [])])], none⟩]

/-- The interface for `{ t: T }` gets the type parameter as it stood before, and the second run finds the
literal that is left in it. -/
theorem extractInterfaces_twice_in_bound :
    ∃ e e',
      (Pass.extractInterfaces "Anon").runAnew (boundLiteral.root false) false boundLiteral.file = .ok e ∧
      (Pass.extractInterfaces "Anon").runAnew (boundLiteral.root false) false e.value = .ok e' ∧
      e.value.members.map Decl.name? = [some "f", some "AnonA", some "AnonT"] ∧
      e'.value.members.map Decl.name? = [some "f", some "AnonA", some "AnonT", some "AnonA1"] ∧
      ¬ (boundLiteral.root false).NothingLeft e.value := by
  have hrun : (((Pass.extractInterfaces "Anon").runAnew (boundLiteral.root false) false
      boundLiteral.file).toOption.any fun e =>
        e.value.members.map Decl.name? == [some "f", some "AnonA", some "AnonT"] &&
        ((Pass.extractInterfaces "Anon").runAnew (boundLiteral.root false) false
          e.value).toOption.any fun e' => e'.changed &&
            e'.value.members.map Decl.name? ==
              [some "f", some "AnonA", some "AnonT", some "AnonA1"]) = true := by
    decide +kernel
  obtain ⟨e, e', he, he', hiff, -⟩ := extractInterfaces_twice boundLiteral false false false "Anon" "Anon"
  rw [he, Except.toOption, Option.any_some, he', Except.toOption, Option.any_some] at hrun
  simp only [Bool.and_eq_true, beq_iff_eq] at hrun
  obtain ⟨hnames, hchanged, hnames'⟩ := hrun
  refine ⟨e, e', he, he', hnames, hnames', fun h => ?_⟩
  exact Bool.false_ne_true ((hiff.2 h).symm.trans hchanged)

end Ambient
