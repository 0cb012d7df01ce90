import Ambient.Proofs.Beside
import Ambient.Proofs.Declared
import Mathlib.Logic.Relation

/-!
# Re-exports of whole modules

What a module makes visible if its exports, and those of the modules that it takes from, are all of the
form `export * from "m"`: its own named declarations, and those of every module that such exports lead
to, except the ones named `default` (`star_exports_reach`).

The search follows these exports depth first and gives up an export that it is already working on.

* Nothing else is found: whatever the trail, each answer holds declarations of modules that are reached
  (`starRealm`).
* Nothing is lost: a module that is reached is reached on a path that comes by no module twice
  (`StarPath.simple`), and along such a path no export is given up (`StarPath.binds`).
-/

namespace Ambient

/-! ## Modules with such exports only -/

/-- Is the declaration no export, or an export of all that a module makes visible? -/
def Decl.isStarAtMost : Decl → Bool
  | .exports _ (.star none _) => true
  | .exports _ _ => false
  | _ => true

/-- Are all exports in the container of that form? -/
def Decl.starsOnly (d : Decl) : Bool := (d.members?.getD []).all Decl.isStarAtMost

def Decl.isModule : Decl → Bool
  | .module _ _ => true
  | _ => false

/-- All ambient modules of the library and of those it depends on, and the latter seen as modules, have
exports of whole modules only. -/
structure Root.StarsOnly (root : Root) (f : File) : Prop where
  file : ∀ d ∈ f.members, d.isModule = true → d.starsOnly = true
  library : ∀ lib ∈ root.deps.libs, lib.module.starsOnly = true ∧
    ∀ d ∈ lib.file.members, d.isModule = true → d.starsOnly = true

/-- The binding is of a declaration in the container of the scope, under its own name. Modules and
augmentations are not seen from outside. -/
def Scope.Declares (s : Scope) (b : Binding) : Prop :=
  ∃ d ∈ s.members, (∀ h ms, d ≠ .module h ms) ∧ (∀ h ms, d ≠ .augmentation h ms) ∧
    d.name? = some b.name ∧ b.found = ⟨d, s⟩

/-- An export in the container of `s` takes all of the module that `s'` is inside. -/
def Scope.StarEdge (s s' : Scope) : Prop :=
  ∃ h x, .exports h (.star none x) ∈ s.members ∧ ∃ g ∈ s.moduleScopes x, g.inner = s'

/-- The binding is of a declaration not named `default` in a module that one or more such exports lead
to. -/
def Scope.Reexports (s : Scope) (b : Binding) : Prop :=
  ∃ s', Relation.TransGen Scope.StarEdge s s' ∧ s'.Declares b ∧ b.name ≠ Ident.defaultExport

variable {b : Binding} {d : Decl} {x : Ident} {n : Nat} {σ σ' : Session} {trail : Trail} {α : Type}

theorem Scope.Reexports.of_declares {s s' : Scope} (he : s.StarEdge s') (hb : s'.Declares b)
    (hname : b.name ≠ Ident.defaultExport) : s.Reexports b :=
  ⟨s', .single he, hb, hname⟩

theorem Scope.Reexports.head {s s' : Scope} (he : s.StarEdge s') (hb : s'.Reexports b) : s.Reexports b := by
  obtain ⟨s'', hreach, hb⟩ := hb
  exact ⟨s'', .head he hreach, hb⟩

theorem exportedFrom_done {s : Scope} (hd : d ∈ s.members) (hexp : ∀ h e, d ≠ .exports h e) :
    ∃ bs, exportedFrom s d = .done bs ∧ ∀ b ∈ bs, s.Declares b := by
  have hnone : ∃ bs, Search.done [] = .done bs ∧ ∀ b ∈ bs, s.Declares b :=
    ⟨[], rfl, List.forall_mem_nil _⟩
  have hname : (∀ h ms, d ≠ .module h ms) → (∀ h ms, d ≠ .augmentation h ms) →
      ∀ b ∈ (d.name?.map fun x => (⟨x, ⟨d, s⟩⟩ : Binding)).toList, s.Declares b := by
    intro hmod haug b hb
    obtain ⟨x, hx, rfl⟩ := Option.map_eq_some_iff.1 (Option.mem_toList.1 hb)
    exact ⟨d, hd, hmod, haug, hx, rfl⟩
  cases d with
  | exports h e => exact absurd rfl (hexp h e)
  | imports _ | global _ _ | exportAs _ | module _ _ | augmentation _ _ => exact hnone
  | _ => exact ⟨_, rfl, hname nofun nofun⟩

theorem Scope.Declares.exportedFrom {s : Scope} (h : s.Declares b) :
    ∃ d ∈ s.members, exportedFrom s d = .done [b] := by
  obtain ⟨d, hd, hmod, haug, hname, hfound⟩ := h
  obtain ⟨x, found⟩ := b
  cases hfound
  refine ⟨d, hd, ?_⟩
  cases d with
  | module h ms => exact absurd rfl (hmod h ms)
  | augmentation h ms => exact absurd rfl (haug h ms)
  | exports _ _ | imports _ | global _ _ | exportAs _ => cases hname
  | _ => cases hname; rfl

/-! ## Nothing else is found -/

section
variable {T : Territory}

/-- The container of the scope has exports of whole modules only. -/
def Scope.StarsOnly (s : Scope) : Prop := ∀ d ∈ s.members, d.isStarAtMost = true

theorem Decl.starsOnly_inside (h : d.starsOnly = true) (s : Scope) : (s.enter (.decl d)).StarsOnly :=
  List.all_eq_true.1 h

/-- From the scopes of the territory, exports lead to modules with exports of whole modules only. -/
def Territory.StarsOnly (T : Territory) : Prop :=
  ∀ {s x g}, T.scope s → g ∈ s.moduleScopes x → g.inner.StarsOnly

/-- The question what an export of a whole module binds, in a scope of the territory. -/
def StarQuestion (T : Territory) : Question → Prop
  | .exported s h e => T.scope s ∧ .exports h e ∈ s.members ∧ ∃ x, e = .star none x
  | _ => False

/-- What is bound is declared in modules that are reached. -/
def StarAnswer : (q : Question) → q.Answer → Prop
  | .exported s _ _, bs => ∀ b ∈ bs, s.Reexports b
  | _, _ => True

variable {s : Scope}

theorem ensures_exportedBy (hs : T.scope s) (hstars : s.StarsOnly) :
    (exportedBy s).Ensures (StarQuestion T) StarAnswer fun bs =>
      ∀ b ∈ bs, s.Declares b ∨ s.Reexports b := by
  refine .concatMapM fun d hd => ?_
  by_cases hexp : ∀ h e, d ≠ .exports h e
  · obtain ⟨bs, hbs, hdcls⟩ := exportedFrom_done hd hexp
    rw [hbs]
    exact fun b hb => .inl (hdcls b hb)
  · simp only [ne_eq, not_forall, not_not] at hexp
    obtain ⟨h, e, rfl⟩ := hexp
    have hstar : ∃ x, e = .star none x := by
      have hmost := hstars _ hd
      unfold Decl.isStarAtMost at hmost
      split at hmost <;> simp_all
    exact .about (q := .exported s h e) ⟨hs, hd, hstar⟩ fun bs hbs b hb => .inr (hbs b hb)

theorem ensures_exportSearch (hT : T.StarsOnly) (hs : T.scope s) {h : ExportHead}
    (he : .exports h (.star none x) ∈ s.members) :
    (exportSearch s h (.star none x)).Ensures (StarQuestion T) StarAnswer fun bs =>
      ∀ b ∈ bs, s.Reexports b := by
  refine .concatMapM fun g hg => ?_
  have hedge : s.StarEdge g.inner := ⟨h, x, he, g, hg, rfl⟩
  have hinner := (Territory.good_of_moduleScopes hs hg).inner
  refine (ensures_exportedBy hinner (hT hs hg)).bind fun bs hbs b hb => ?_
  obtain ⟨hb, hname⟩ := List.mem_filter.1 hb
  rcases hbs b hb with hb | hb
  · exact .of_declares hedge hb (bne_iff_ne.1 hname)
  · exact .head hedge hb

/-- The questions what exports of whole modules bind. -/
def starRealm (hT : T.StarsOnly) : Realm where
  asked := StarQuestion T
  given := StarAnswer
  search q hq := by
    cases q with
    | exported s h e =>
      obtain ⟨hs, he, x, rfl⟩ := hq
      exact ensures_exportSearch hT hs he
    | _ => exact hq.elim
  unanswered q hq := by
    cases q with
    | exported s h e => exact List.forall_mem_nil _
    | _ => exact hq.elim

end

/-! ## Nothing is lost -/

/-- A path of exports from a scope to another, with the scopes that are left on the way. -/
inductive StarPath : Scope → List Scope → Scope → Prop
  | here (s : Scope) : StarPath s [] s
  | step {s s' s'' : Scope} {left : List Scope} (he : s.StarEdge s') (h : StarPath s' left s'') :
    StarPath s (s :: left) s''

namespace StarPath

variable {s s' s'' : Scope} {left : List Scope}

theorem from_mem (h : StarPath s left s'') (hs' : s' ∈ left) :
    ∃ left', StarPath s' left' s'' ∧ left'.Sublist left := by
  induction h with
  | here s => cases hs'
  | step he h ih =>
    rcases List.mem_cons.1 hs' with rfl | hs'
    · exact ⟨_, .step he h, .refl _⟩
    · obtain ⟨left', h', hsub⟩ := ih hs'
      exact ⟨left', h', hsub.cons _⟩

/-- **What is reached is reached on a path that leaves no scope twice.** -/
theorem simple (h : Relation.ReflTransGen Scope.StarEdge s s') :
    ∃ left, StarPath s left s' ∧ left.Nodup := by
  induction h using Relation.ReflTransGen.head_induction_on with
  | refl => exact ⟨[], .here _, .nil⟩
  | @head s s₁ he _ ih =>
    obtain ⟨left, hpath, hnodup⟩ := ih
    by_cases hs : s ∈ left
    · obtain ⟨left', hpath', hsub⟩ := hpath.from_mem hs
      exact ⟨left', hpath', hnodup.sublist hsub⟩
    · exact ⟨s :: left, .step he hpath, hnodup.cons hs⟩

end StarPath

/-- All questions. -/
def anyRealm : Realm where
  asked _ := True
  given _ _ := True
  search q _ := .any q.search
  unanswered _ _ := True.intro

theorem FoundWithin.run {post : α → Prop} {p : Search α}
    (hp : p.Ensures (fun _ => True) (FoundWithin n trail) post) {r : α} (hσ : σ.memo = none)
    (h : (p.run (answerWithin n trail)).run σ = .ok (r, σ')) : post r := by
  induction p generalizing σ with
  | done a =>
    cases h
    exact hp
  | ask q next ih =>
    obtain ⟨a, σ₁, ha, hn⟩ := run_ask_ok.1 h
    obtain ⟨-, hafter⟩ := answerWithin_after anyRealm n trail q σ a σ₁ True.intro
      (Session.faithful_of_none _ hσ) ha
    have hσ₁ : σ₁.memo = none := by
      rw [← Option.isNone_iff_eq_none, ← Option.not_isSome, hafter.memo, hσ]
      rfl
    exact ih a (hp.2 a ⟨σ, σ₁, hσ, ha⟩) hσ₁ hn

theorem Search.Ensures.mem_concatMapM {β : Type} {given : (q : Question) → q.Answer → Prop}
    {find : α → Search (List β)} {as : List α} {a : α} (ha : a ∈ as) {b : β}
    (h : (find a).Ensures (fun _ => True) given (b ∈ ·)) :
    (Ambient.concatMapM find as).Ensures (fun _ => True) given (b ∈ ·) := by
  induction as with
  | nil => cases ha
  | cons a' as ih =>
    rcases List.mem_cons.1 ha with rfl | ha
    · refine h.bind fun bs hb => .bind (.any _) fun bs' _ => ?_
      exact List.mem_append_left _ hb
    · refine .bind (.any _) fun bs' _ => (ih ha).bind fun bs hb => ?_
      exact List.mem_append_right _ hb

namespace StarPath

variable {T : Territory} {s s' : Scope} {left : List Scope}

theorem scope_of_mem (h : StarPath s left s') (hs : T.scope s) : ∀ c ∈ left, T.scope c := by
  induction h with
  | here s => exact List.forall_mem_nil _
  | step he h ih =>
    obtain ⟨-, x, -, g, hg, rfl⟩ := he
    intro c hc
    rcases List.mem_cons.1 hc with rfl | hc
    · exact hs
    · exact ih (Territory.good_of_moduleScopes hs hg).inner c hc

/-- **Along a path that leaves no scope twice nothing is given up**, if the trail has none of the scopes
that are left. By induction on the path: the pair that its first export takes up is that of a scope
which is not left again. -/
theorem binds (hT : T.Numbered) (h : StarPath s left s') (hs : T.scope s) (hnodup : left.Nodup)
    (hfree : ∀ c ∈ left, ∀ p ∈ trail, p.1 ≠ c.key) (hb : s'.Declares b)
    (hname : left ≠ [] → b.name ≠ Ident.defaultExport) :
    (exportedBy s).Ensures (fun _ => True) (FoundWithin n trail) (b ∈ ·) := by
  induction h generalizing n trail with
  | here s =>
    obtain ⟨d, hd, hdone⟩ := hb.exportedFrom
    refine .mem_concatMapM hd ?_
    rw [hdone]
    exact List.mem_singleton_self b
  | @step s s₁ s' left he h ih =>
    obtain ⟨x, m, hexp, g, hg, rfl⟩ := he
    obtain ⟨hnotin, hnodup⟩ := List.nodup_cons.1 hnodup
    have hinner := (Territory.good_of_moduleScopes hs hg).inner
    refine .mem_concatMapM hexp (.about (q := .exported s x (.star none m)) True.intro ?_)
    rintro bs ⟨σ, σ', hσ, hrun⟩
    cases n with
    | zero => cases hrun
    | succ n =>
      have hopen : ¬ (Question.exported s x (.star none m)).CutOn trail := by
        rintro ⟨p, hp, hmem⟩
        cases hp
        exact hfree s (.head _) _ hmem rfl
      rw [answerWithin_open hopen, memoized_of_none hσ] at hrun
      refine FoundWithin.run (.mem_concatMapM hg ?_) hσ hrun
      refine (ih hinner hnodup (fun c hc p hp => ?_) hb fun _ => hname (List.cons_ne_nil _ _)).bind
        fun bs hbs => ?_
      · rcases List.mem_cons.1 hp with rfl | hp
        · intro hkey
          obtain rfl := hT.scope hs (h.scope_of_mem hinner c hc) hkey
          exact hnotin hc
        · exact hfree c (.tail _ hc) p hp
      · exact List.mem_filter.2 ⟨hbs, bne_iff_ne.2 (hname (List.cons_ne_nil _ _))⟩

end StarPath

/-! ## What a module makes visible -/

section
variable {T : Territory} {s : Scope}

/-- What is found without a memory, on an empty trail, is what is declared and what is reached. -/
theorem mem_exported_iff (hT : T.Numbered) (hstars : T.StarsOnly) (hs : T.scope s) (hown : s.StarsOnly)
    (hσ : σ.memo = none) {bs : List Binding}
    (h : ((exportedBy s).run (answerWithin n [])).run σ = .ok (bs, σ')) (b : Binding) :
    b ∈ bs ↔ s.Declares b ∨ s.Reexports b := by
  constructor
  · obtain ⟨hbs, -⟩ := (answerWithin_after (starRealm hstars) n []).run
      (ensures_exportedBy hs hown) (Session.faithful_of_none _ hσ) h
    exact hbs b
  · have hempty : ∀ {left : List Scope}, ∀ c ∈ left, ∀ p ∈ ([] : Trail), p.1 ≠ c.key :=
      fun _ _ _ hp => absurd hp List.not_mem_nil
    rintro (hb | ⟨s', hreach, hb, hname⟩)
    · exact FoundWithin.run (StarPath.binds hT (.here s) hs .nil hempty hb fun h => absurd rfl h) hσ h
    · obtain ⟨left, hpath, hnodup⟩ := StarPath.simple hreach.to_reflTransGen
      exact FoundWithin.run (hpath.binds hT hs hnodup hempty hb fun _ => hname) hσ h

end

theorem Node.file_notMem_entries (n : Node) (g : File) : .file g ∉ n.entries := by
  intro hmem
  cases hds : n.members? with
  | none =>
    rw [entries, hds] at hmem
    obtain ⟨-, d, hd⟩ := Node.decl_of_mem_children hmem rfl
    cases hd
  | some ds =>
    rw [entries, hds] at hmem
    obtain ⟨d, -, hd⟩ := List.mem_flatMap.1 hmem
    unfold Decl.entries at hd
    split at hd <;> simp at hd

theorem Root.Enters.file_cases {root : Root} {f : File} {s : Scope} (h : root.Enters f s) {g : File}
    (hg : s.current? = some (.file g)) :
    g = f ∨ ∃ x lib, root.deps.find? x = some lib ∧ g = lib.file := by
  cases h with
  | file =>
    cases hg
    exact .inl rfl
  | library => cases hg
  | @enter s n hs hn =>
    obtain rfl : n = .file g := Option.some.inj hg
    unfold Root.Next at hn
    split at hn
    · rename_i n₀ _
      exact absurd hn (n₀.file_notMem_entries g)
    · obtain ⟨x, lib, hlib, -, hn⟩ := hn
      refine .inr ⟨x, lib, hlib, ?_⟩
      simpa using hn

namespace Root.StarsOnly

variable {root : Root} {f : File} (h : root.StarsOnly f)
include h

variable {s : Scope}

theorem of_isFile (hs : root.Enters f s) (hfile : s.isFile = true) :
    ∀ d ∈ s.members, d.isModule = true → d.starsOnly = true := by
  unfold Scope.isFile at hfile
  split at hfile
  · rename_i g hg
    have hmems : s.members = g.members := by rw [Scope.members, hg]; rfl
    rw [hmems]
    rcases hs.file_cases hg with rfl | ⟨x, lib, hlib, rfl⟩
    · exact h.file
    · exact (h.library lib (List.mem_of_find?_eq_some hlib)).2
  · cases hfile

theorem of_modulesNamed (hs : root.Enters f s) (hfile : s.isFile = true) {g : Found}
    (hg : g ∈ s.modulesNamed x) : g.inner.StarsOnly := by
  obtain ⟨d, hd, he⟩ := List.mem_filterMap.1 hg
  split at he
  · split at he
    · cases he
      exact Decl.starsOnly_inside (h.of_isFile hs hfile _ hd rfl) s
    · cases he
  · cases he

theorem territory : (root.territory f).StarsOnly := by
  intro s x g hs hg
  rcases List.mem_append.1 hg with hg | hg
  · obtain ⟨s', hs', hg⟩ := List.mem_flatMap.1 hg
    rcases List.mem_append.1 hs' with hs' | hs'
    · have hs' : s.fileScope? = some s' := Option.mem_toList.1 hs'
      exact h.of_modulesNamed (Territory.fileScope_scope hs hs') (List.find?_some hs') hg
    · have henter := Territory.scope_of_dependencyScopes hs hs'
      obtain ⟨y, -, hy⟩ := List.mem_filterMap.1 hs'
      obtain ⟨lib, -, rfl⟩ := (Scope.dependencyScope?_eq rfl).1 hy
      exact h.of_modulesNamed henter rfl hg
  · obtain ⟨lib, hlib, hg⟩ := List.mem_flatMap.1 hg
    obtain ⟨r, -, rfl⟩ := List.mem_map.1 hg
    have hfind : s.root.deps.find? x = some lib := Option.mem_toList.1 hlib
    rw [Root.Enters.deps_eq hs] at hfind
    obtain ⟨hmod, -⟩ := h.library lib (List.mem_of_find?_eq_some hfind)
    exact Decl.starsOnly_inside hmod r

end Root.StarsOnly

/-- **Exports of whole modules lead to all that is reachable.** In a library where all modules have such
exports only, what a module makes visible is what it declares and what the modules declare that one or
more such exports lead to, names `default` apart; with any memory of ideal answers, or with none. -/
theorem star_exports_reach (lib : Library) (pedantic : Bool)
    (hstars : (lib.root pedantic).StarsOnly lib.numbered) {o : Scope}
    (ho : (lib.root pedantic).Enters lib.numbered o) {m : Decl} (hm : o.Holds m)
    (hown : m.starsOnly = true) :
    ∃ bs, (∀ b, b ∈ bs ↔ (o.enter (.decl m)).Declares b ∨ (o.enter (.decl m)).Reexports b) ∧
      ∀ σ, σ.Faithful ((lib.root pedantic).territory lib.numbered).realm →
        ∃ σ', (Query.exported (o.enter (.decl m))).ask.run σ = .ok (bs, σ') := by
  have hT := (lib.numbered_root pedantic).territory
  have hs : (lib.root pedantic).Enters lib.numbered (o.enter (.decl m)) := ho.held hm
  have hQ : (Query.exported (o.enter (.decl m))).In
      ((lib.root pedantic).territory lib.numbered).realm :=
    (Territory.binds_exportedBy hs).mono (fun _ h => h) fun _ _ => trivial
  have hends : Query.Ends _ [] {} := Query.ends_of_faithful hQ [] (Session.faithful_of_none _ rfl)
  obtain ⟨⟨bs, σ₀⟩, hrun, -⟩ := hends.answer
  refine ⟨bs, mem_exported_iff hT hstars.territory hs (Decl.starsOnly_inside hown o) rfl hrun,
    fun σ hσ => ?_⟩
  -- A query for what exports bind gets the same answer with a memory as without.
  have hplain : (Query.exported (o.enter (.decl m))).Plain := trivial
  obtain ⟨bs', σ', hask, hnone⟩ := (hplain.unmixed hT hQ).ask_eq hT.apart hQ hσ
  rw [Query.ask, afresh_run, hrun] at hnone
  obtain rfl : bs = bs' := (Prod.mk.inj (Except.ok.inj hnone)).1
  exact ⟨σ', hask⟩

/-- Two modules that take all of each other, one of them with a default. -/
def mutualModules : Library where
  name := "lib"
  deps := []
  file :=
    { info := {}
      directives := []
      codePath := .noPath
      members := [
        .module ⟨{}, true, "a", .noPath, .zero⟩ [
          .iface ⟨{}, true, "A", [], [], [], .noPath⟩,
          .exports ⟨{}, false, .named⟩ (.star none "b")],
        .module ⟨{}, true, "b", .noPath, .zero⟩ [
          .iface ⟨{}, true, "B", [], [], [], .noPath⟩,
          .iface ⟨{}, true, "default", [], [], [], .noPath⟩,
          .exports ⟨{}, false, .named⟩ (.star none "a")]] }

def mutualScope : Scope :=
  (Scope.ofRoot (mutualModules.root false)).enter (.file mutualModules.numbered)

theorem star_exports_reach_in_circles :
    (mutualScope.members.map fun m => ((Query.exported (mutualScope.enter (.decl m))).ask.run
        {}).toOption.map (·.1.map (·.name))) = [some ["A", "B", "A"], some ["B", "default", "A", "B"]] ∧
      ∀ m ∈ mutualScope.members, ∃ bs σ,
        (Query.exported (mutualScope.enter (.decl m))).ask.run {} = .ok (bs, σ) ∧ ∀ b, b ∈ bs ↔
          (mutualScope.enter (.decl m)).Declares b ∨ (mutualScope.enter (.decl m)).Reexports b := by
  have hstars : (mutualModules.root false).StarsOnly mutualModules.numbered :=
    ⟨by decide +kernel, nofun⟩
  have hmodules : ∀ m ∈ mutualScope.members, m.starsOnly = true := by decide +kernel
  refine ⟨by decide +kernel, fun m hm => ?_⟩
  obtain ⟨bs, hbs, hask⟩ :=
    star_exports_reach mutualModules false hstars .file (.inl hm) (hmodules m hm)
  obtain ⟨σ, hrun⟩ := hask {} (Session.faithful_of_none _ rfl)
  exact ⟨bs, σ, hrun, hbs⟩

end Ambient
