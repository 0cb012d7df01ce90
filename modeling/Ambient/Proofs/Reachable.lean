import Ambient.Proofs.Forgetful
import Ambient.Proofs.Forwarding
import Ambient.Proofs.Overriding

/-!
# Classes with constructors within reach

A class inherits constructors if one that has some can be reached from it along the references of classes
to their parents (`Scope.Inherits`). References are looked up from inside the class that they stand on,
where it was found.

The search for constructors gives up a class that it is already working on. It still finds constructors
whenever there are any (`Found.hasCtorsOff_iff`): a way to them that comes by a class twice can be cut short.

* `Root.lineages`: the questions of such searches. Each is only given up for itself, so they find the same
  with a memory as without.
* `forwardCtors_completes`: what the classes of a file get.
-/

namespace Ambient

/-! ## Reaching constructors -/

/-- The class that was found declares constructors, or its parent has some. -/
inductive Found.HasCtors : Found → Prop
  | own {f : Found} {c : ClassDecl} (hc : f.decl = .cls c) (h : c.ctors ≠ []) : HasCtors f
  | inherited {f g : Found} {c : ClassDecl} {i : NodeInfo} {q : QIdent} {targs : List Ty}
    (hc : f.decl = .cls c) (hparent : c.parent = some (.ref i q targs))
    (hg : g ∈ f.inner.denotes .classes q) (h : HasCtors g) : HasCtors f

/-- A class with constructors can be reached from the class `c`, from inside of which `s` looks, along
references to parents. -/
def Scope.Inherits (s : Scope) (c : ClassDecl) : Prop :=
  ∃ i q targs, c.parent = some (.ref i q targs) ∧ ∃ g ∈ s.denotes .classes q, g.HasCtors

/-- The parents of the two classes have one name, which denotes classes that `R` relates. -/
def ParentsIn (R : Found → Found → Prop) (s : Scope) (c : ClassDecl) (t : Scope) (c' : ClassDecl) : Prop :=
  ∀ i q targs, c.parent = some (.ref i q targs) → (∃ j us, c'.parent = some (.ref j q us)) ∧
    List.Forall₂ R (s.denotes .classes q) (t.denotes .classes q)

variable {c : ClassDecl} {n : Nat} {s : Scope}

section
variable {R : Found → Found → Prop}

/-- A class has constructors if one that it corresponds to has: the way to them is followed in step. -/
theorem Found.HasCtors.transfer
    (hown : ∀ {a b c}, R a b → a.decl = .cls c → c.ctors ≠ [] → b.HasCtors)
    (hpar : ∀ {a b c}, R a b → a.decl = .cls c →
      ∃ c', b.decl = .cls c' ∧ ParentsIn R a.inner c b.inner c')
    {a b : Found} (h : a.HasCtors) (hab : R a b) : b.HasCtors := by
  induction h generalizing b with
  | own hc h => exact hown hab hc h
  | inherited hc hpar' hg _ ih =>
    obtain ⟨c', hc', hpars⟩ := hpar hab hc
    obtain ⟨⟨j, us, hpar''⟩, hden⟩ := hpars _ _ _ hpar'
    obtain ⟨g', hg', hgg'⟩ := exists_of_forall₂ hden hg
    exact .inherited hc' hpar'' hg' (ih hgg')

theorem Scope.Inherits.transfer {t : Scope} {c' : ClassDecl} (h : s.Inherits c)
    (hctors : ∀ {a b}, R a b → a.HasCtors → b.HasCtors) (hpars : ParentsIn R s c t c') : t.Inherits c' := by
  obtain ⟨i, q, targs, hpar, g, hg, hhas⟩ := h
  obtain ⟨⟨j, us, hpar'⟩, hden⟩ := hpars _ _ _ hpar
  obtain ⟨g', hg', hgg'⟩ := exists_of_forall₂ hden hg
  exact ⟨j, q, us, hpar', g', hg', hctors hgg' hhas⟩

end

/-- The way to constructors does not come by what is on the trail. -/
inductive Found.HasCtorsOff (T : Trail) : Found → Prop
  | own {f : Found} {c : ClassDecl} (hf : f.pair ∉ T) (hc : f.decl = .cls c) (h : c.ctors ≠ []) :
    HasCtorsOff T f
  | inherited {f g : Found} {c : ClassDecl} {i : NodeInfo} {q : QIdent} {targs : List Ty}
    (hf : f.pair ∉ T) (hc : f.decl = .cls c) (hparent : c.parent = some (.ref i q targs))
    (hg : g ∈ f.inner.denotes .classes q) (h : HasCtorsOff T g) : HasCtorsOff T f

namespace Found

theorem hasCtorsOff_nil {f : Found} : f.HasCtorsOff [] ↔ f.HasCtors := by
  constructor
  · intro h
    induction h with
    | own _ hc h => exact .own hc h
    | inherited _ hc hpar hg _ ih => exact .inherited hc hpar hg ih
  · intro h
    induction h with
    | own hc h => exact .own List.not_mem_nil hc h
    | inherited hc hpar hg _ ih => exact .inherited List.not_mem_nil hc hpar hg ih

theorem HasCtorsOff.mono {T T' : Trail} {f : Found} (h : f.HasCtorsOff T') (hT : T ⊆ T') :
    f.HasCtorsOff T := by
  induction h with
  | own hf hc h => exact .own (fun hm => hf (hT hm)) hc h
  | inherited hf hc hpar hg _ ih => exact .inherited (fun hm => hf (hT hm)) hc hpar hg ih

/-- What the search tries next from a class. -/
def TriesOff (T : Trail) (f : Found) : Prop :=
  ∃ c, f.decl = .cls c ∧ (c.ctors ≠ [] ∨ ∃ i q targs, c.parent = some (.ref i q targs) ∧
    ∃ g ∈ f.inner.denotes .classes q, g.HasCtorsOff (f.pair :: T))

section
variable {T : Trail} {good : Found → Prop}
  (hgood : ∀ {g g' : Found} {picker : Picker} {q : QIdent}, good g → g' ∈ g.inner.denotes picker q → good g')
  {f : Found} (hf : ∀ {g : Found}, good g → g.pair = f.pair → g = f)
include hgood hf

/-- A way to constructors either does not come by `f`, or what is left of it from the last time it does
leads from `f` to constructors. -/
theorem HasCtorsOff.avoid (hg : good g) (h : g.HasCtorsOff T) :
    g.HasCtorsOff (f.pair :: T) ∨ f.TriesOff T := by
  induction h with
  | @own g c hT hc h =>
    by_cases hgf : g.pair = f.pair
    · obtain rfl := hf hg hgf
      exact .inr ⟨c, hc, .inl h⟩
    · exact .inl (.own (by simp [hgf, hT]) hc h)
  | @inherited g g' c i q targs hT hc hpar hg' _ ih =>
    have ih := ih (hgood hg hg')
    by_cases hgf : g.pair = f.pair
    · obtain rfl := hf hg hgf
      exact .inr (ih.elim (fun h => ⟨c, hc, .inr ⟨i, q, targs, hpar, g', hg', h⟩⟩) id)
    · exact ih.imp_left fun h => .inherited (by simp [hgf, hT]) hc hpar hg' h

/-- Nothing is missed if a class is not tried again that is being tried. -/
theorem hasCtorsOff_iff (hgf : good f) : f.HasCtorsOff T ↔ f.pair ∉ T ∧ f.TriesOff T := by
  constructor
  · intro h
    refine ⟨by cases h <;> assumption, ?_⟩
    refine (h.avoid hgood hf hgf).resolve_left fun h => ?_
    cases h with
    | own hm | inherited hm => exact hm (.head _)
  · rintro ⟨hT, c, hc, h | ⟨i, q, targs, hpar, g, hg, h⟩⟩
    · exact .own hT hc h
    · exact .inherited hT hc hpar hg (h.mono (List.subset_cons_self _ _))

end

end Found

/-! ## The questions of a search for constructors -/

section
variable {root : Root} {f : File}

/-- The question comes up on the way to constructors, names that imports and exports look up apart. -/
inductive Question.SeeksCtors (root : Root) (f : File) : Question → Prop
  | name {s : Scope} {q : QIdent} (hs : root.Enters f s) (hcontainer : s.isContainer = false) :
    SeeksCtors root f (.name .classes s q)
  | ctors {s : Scope} {q : QIdent} {targs : List Ty} (hs : root.Enters f s)
    (hcontainer : s.isContainer = false) : SeeksCtors root f (.ctors s q targs)
  | ctorsOf {g : Found} {c : ClassDecl} (hg : (root.territory f).Good g) (hc : g.decl = .cls c) :
    SeeksCtors root f (.ctorsOf g c)

variable {g : Found} {q : QIdent}

theorem Found.inner_seeks (hg : (root.territory f).Good g) (hc : g.decl = .cls c) :
    root.Enters f g.inner ∧ g.inner.isContainer = false := by
  refine ⟨hg.inner, ?_⟩
  rw [Found.inner, hc]
  rfl

theorem Question.SeeksCtors.search {q : Question} (hq : q.SeeksCtors root f) :
    q.search.Ensures (fun q => (root.territory f).strictly.asked q ∨ q.SeeksCtors root f)
      (root.territory f).strictly.given ((root.territory f).strictly.given q) := by
  cases hq with
  | name hs _ =>
    exact (Territory.picks_nameSearch (T := (root.territory f).strictly) .classes hs _).mono
      (fun _ h => .inl h) fun _ h => h
  | @ctors s q _ hs hcont =>
    refine .bind (.about (q := .name .classes s q) (Or.inr (.name hs hcont)) fun _ h => h)
      fun fs hfs => ?_
    refine .firstNonempty trivial fun g hg => ?_
    unfold ctorsOfFound
    split
    · rename_i c hc
      exact .bind (.about (q := .ctorsOf g c) (Or.inr (.ctorsOf (hfs g hg).1 hc)) fun _ h => h)
        fun _ _ => trivial
    · trivial
  | @ctorsOf g c hg hc =>
    change (classCtorsSearch g.inner c).Ensures _ _ _
    unfold classCtorsSearch
    dsimp only
    split
    · trivial
    split
    · obtain ⟨hinner, hcont⟩ := Found.inner_seeks hg hc
      exact .about (q := .ctors _ _ _) (Or.inr (.ctors hinner hcont)) fun _ _ => trivial
    · trivial

/-- The questions that come up in searches for constructors. -/
def Root.lineages (root : Root) (f : File) : Realm where
  asked q := (root.territory f).strictly.asked q ∨ q.SeeksCtors root f
  given := (root.territory f).strictly.given
  search q hq := hq.elim
    (fun hq => ((root.territory f).strictly.realm.search q hq).mono (fun _ h => .inl h) fun _ h => h)
    Question.SeeksCtors.search
  unanswered q _ := by
    cases q <;> simp [Territory.given, Question.unanswered]

theorem Root.plainly_of_strictly {e : Question} (he : (root.territory f).strictly.asked e) :
    (root.territory f).plainly.asked e := by
  cases e with
  | name picker s q => exact ⟨he.1, trivial, he.2.2⟩
  | imported s i | exported s h x => exact ⟨he.1, he.1, he.2⟩
  | _ => exact absurd trivial he.1

theorem Root.Numbered.class_ne (hnum : root.Numbered f) (hg : (root.territory f).Good g)
    (hc : g.decl = .cls c) {e : Question} (he : (root.territory f).strictly.asked e) :
    e.pair? ≠ some g.pair := by
  intro hpair
  rcases Territory.plain_cases (Root.plainly_of_strictly he) hpair with
    ⟨s, x, -, -, hp⟩ | ⟨s, d, hs, hd, hbind, hp⟩
  · cases (Prod.mk.inj hp).2
  · obtain ⟨hkey, hid⟩ := Prod.mk.inj hp
    obtain rfl := hnum.key_inj hg.1 hs hkey
    have hnode := hnum.next_inj hs (hg.1.next hg.2) (.of_mem hd.2 d.mem_entries_self) (Step.node.inj hid)
    cases hc.symm.trans (Node.decl.inj hnode)
    cases hbind

theorem Root.Numbered.found_inj (hnum : root.Numbered f) {g' : Found} (hg : (root.territory f).Good g)
    (hg' : (root.territory f).Good g') (h : g.pair = g'.pair) : g = g' := by
  obtain ⟨d, s⟩ := g
  obtain ⟨d', s'⟩ := g'
  obtain ⟨hkey, hid⟩ := Prod.mk.inj h
  obtain rfl := hnum.key_inj hg.1 hg'.1 hkey
  have hnode := hnum.next_inj hg.1 (hg.1.next hg.2) (hg.1.next hg'.2) (Step.node.inj hid)
  have hd : d = d' := Node.decl.inj hnode
  rw [hd]

/-- **A pair is taken up for one question only.** -/
theorem Root.Numbered.lineage_of_pair (hnum : root.Numbered f) {q q' : Question}
    (hq : (root.lineages f).asked q) (hq' : (root.lineages f).asked q') {p : ScopeKey × Step}
    (hp : q.pair? = some p) (hp' : q'.pair? = some p) : q = q' := by
  -- Inside a class nothing stands that looks up names.
  have hname : ∀ {s x} {e : Question}, root.Enters f s → s.isContainer = false →
      (Question.name .classes s x).pair? = some p → e.pair? = some p →
      ¬ (root.territory f).strictly.asked e := by
    intro s x e hs hcont hp hep he
    simp only [Question.pair?] at hp
    split at hp
    · cases hp
    · cases hp
      obtain ⟨d, hd, -⟩ := hnum.territory.lookedUp_of_pair hs he hep
      rw [Scope.members_eq_nil hcont] at hd
      cases hd
  have hclass : ∀ {g c} {e : Question}, (root.territory f).Good g → g.decl = .cls c →
      (Question.ctorsOf g c).pair? = some p → e.pair? = some p → ¬ (root.territory f).strictly.asked e :=
    fun hg hc hp hep he => hnum.class_ne hg hc he (hep.trans hp.symm)
  rcases hq with hq | hq <;> rcases hq' with hq' | hq'
  · exact hnum.territory.eq_of_pair (Root.plainly_of_strictly hq) (Root.plainly_of_strictly hq') hp hp'
  · cases hq' with
    | name hs hcont => exact absurd hq (hname hs hcont hp' hp)
    | ctors => cases hp'
    | ctorsOf hg hc => exact absurd hq (hclass hg hc hp' hp)
  · cases hq with
    | name hs hcont => exact absurd hq' (hname hs hcont hp hp')
    | ctors => cases hp
    | ctorsOf hg hc => exact absurd hq' (hclass hg hc hp hp')
  · cases hq with
    | name hs hcont =>
      simp only [Question.pair?] at hp
      split at hp
      · cases hp
      · cases hp
        cases hq' with
        | name hs' hcont' =>
          simp only [Question.pair?] at hp'
          split at hp'
          · cases hp'
          · obtain ⟨hkey, hx⟩ := Prod.mk.inj (Option.some.inj hp')
            obtain rfl := hnum.key_inj hs' hs hkey
            rw [Step.name.inj hx]
        | ctors => cases hp'
        | ctorsOf hg hc => cases (Prod.mk.inj (Option.some.inj hp')).2
    | ctors => cases hp
    | ctorsOf hg hc =>
      cases hp
      cases hq' with
      | name hs' hcont' =>
        simp only [Question.pair?] at hp'
        split at hp'
        · cases hp'
        · cases (Prod.mk.inj (Option.some.inj hp')).2
      | ctors => cases hp'
      | ctorsOf hg' hc' =>
        obtain rfl := hnum.found_inj hg' hg (Option.some.inj hp')
        cases hc.symm.trans hc'
        rfl

/-! ## What a search for constructors finds -/

/-- The list holds constructors only, and some just if there are any. -/
structure ListsCtors (there : Prop) (ms : List Member) : Prop where
  all : ∀ m ∈ ms, m.isClassCtor = true
  iff : ms ≠ [] ↔ there

namespace ListsCtors

variable {P Q : Prop} {ms : List Member}

theorem nil (h : ¬ P) : ListsCtors P [] :=
  ⟨List.forall_mem_nil _, fun hne => absurd rfl hne, fun hP => absurd hP h⟩

theorem congr (h : ListsCtors P ms) (hPQ : P ↔ Q) : ListsCtors Q ms :=
  ⟨h.all, h.iff.trans hPQ⟩

theorem own (c : ClassDecl) : ListsCtors (c.ctors ≠ []) (c.members.filter Member.isClassCtor) := by
  refine ⟨fun m hm => (List.mem_filter.1 hm).2, ?_⟩
  rw [← c.map_ctors, Ne, List.map_eq_nil_iff]

theorem instantiate (h : ListsCtors P ms) (c : ClassDecl) (targs : List Ty) :
    ListsCtors P (instantiateCtors c targs ms) := by
  unfold instantiateCtors
  dsimp only
  split
  · exact h
  · refine ⟨fun m hm => ?_, by rw [Ne, List.map_eq_nil_iff]; exact h.iff⟩
    obtain ⟨m₀, hm₀, rfl⟩ := List.mem_map.1 hm
    have hctor := h.all m₀ hm₀
    cases m₀ <;> exact hctor

theorem first {answer : (q : Question) → Option q.Answer} {α : Type} {find : α → Search (List Member)}
    {R : α → Prop} {as : List α}
    (h : ∀ a ∈ as, ∀ ms, (find a).run answer = some ms → ListsCtors (R a) ms)
    (hms : (firstNonempty find as).run answer = some ms) : ListsCtors (∃ a ∈ as, R a) ms := by
  induction as generalizing ms with
  | nil =>
    cases hms
    exact .nil (by simp)
  | cons a as ih =>
    rw [firstNonempty, Search.run_bind, Option.bind_eq_bind, Option.bind_eq_some_iff] at hms
    obtain ⟨bs, hbs, hms⟩ := hms
    have ha := h a (.head _) bs hbs
    split at hms
    · have has := ih (fun a ha => h a (.tail _ ha)) hms
      have hnone : ¬ R a := fun hR => ha.iff.2 hR rfl
      exact has.congr (by simp [hnone])
    · rename_i hne
      cases hms
      have hR : R a := ha.iff.1 hne
      exact ha.congr ⟨fun _ => ⟨a, .head _, hR⟩, fun _ => hR⟩

end ListsCtors

/-- Only classes that were found are on the trail. -/
def Trail.OfClasses (root : Root) (f : File) (T : Trail) : Prop :=
  ∀ p ∈ T, ∃ g c, (root.territory f).Good g ∧ g.decl = .cls c ∧ p = g.pair

theorem Root.Enters.denotes_good (hs : root.Enters f s) {picker : Picker} (hg : g ∈ s.denotes picker q) :
    (root.territory f).Good g := by
  have hasked : (root.searches f).realm.asked (.name picker s q) := ⟨hs, trivial, fun h => h.elim⟩
  exact (Realm.given_of_answerOn hasked (s.answerOn_denotes picker q (Nat.le_refl _)) g hg).1

section
variable (hnum : root.Numbered f) {T : Trail} (hT : T.OfClasses root f)
include hnum hT

theorem Root.Numbered.denotes_on (hs : root.Enters f s) {fs : List Found}
    (h : answerOn n T (.name .classes s q) = some fs) : fs = s.denotes .classes q := by
  refine Scope.denotes_of_answerOn (T := root.territory f) hs (fun he hp hmem => ?_) (fun hmem => ?_) h
  · obtain ⟨g, c, hg, hc, rfl⟩ := hT _ hmem
    exact hnum.class_ne hg hc he hp
  · obtain ⟨g, c, hg, hc, hp⟩ := hT _ hmem
    cases (Prod.mk.inj hp).2

theorem Root.Numbered.ctors_step (ih : ∀ {g c ms}, (root.territory f).Good g → g.decl = .cls c →
      answerOn n T (.ctorsOf g c) = some ms → ListsCtors (g.HasCtorsOff T) ms) (hs : root.Enters f s)
    {targs : List Ty} {ms : List Member} (h : answerOn (n + 1) T (.ctors s q targs) = some ms) :
    ListsCtors (∃ g ∈ s.denotes .classes q, g.HasCtorsOff T) ms := by
  have hopen : ¬ (Question.ctors s q targs).CutOn T := by
    rintro ⟨p, hp, -⟩
    cases hp
  rw [answerOn_open hopen] at h
  change (ctorsSearch s q targs).run (answerOn n T) = some ms at h
  rw [ctorsSearch, Search.run_bind, Option.bind_eq_bind, Option.bind_eq_some_iff] at h
  obtain ⟨fs, hfs, h⟩ := h
  simp only [Search.about, Search.run, bind_pure] at hfs
  obtain rfl := hnum.denotes_on hT hs hfs
  refine ListsCtors.first (fun g hg ms hms => ?_) h
  unfold ctorsOfFound at hms
  split at hms
  · rename_i c hc
    rw [Search.run_bind, Option.bind_eq_bind, Option.bind_eq_some_iff] at hms
    obtain ⟨ms₀, hms₀, hms⟩ := hms
    simp only [Search.about, Search.run, bind_pure] at hms₀
    cases hms
    exact (ih (hs.denotes_good hg) hc hms₀).instantiate c targs
  · rename_i hc
    cases hms
    refine .nil fun hctors => ?_
    cases hctors with
    | own _ hc' | inherited _ hc' => exact hc _ hc'

omit hnum hT in
theorem Root.Numbered.ctorsOf_step (hnum : root.Numbered f) (hT : T.OfClasses root f)
    (ih : ∀ {T : Trail}, T.OfClasses root f → ∀ {s q targs ms}, root.Enters f s →
      answerOn n T (.ctors s q targs) = some ms →
        ListsCtors (∃ g ∈ s.denotes .classes q, g.HasCtorsOff T) ms) (hg : (root.territory f).Good g)
    (hc : g.decl = .cls c) {ms : List Member} (h : answerOn (n + 1) T (.ctorsOf g c) = some ms) :
    ListsCtors (g.HasCtorsOff T) ms := by
  have hgood : ∀ {g g' : Found} {picker : Picker} {q : QIdent}, (root.territory f).Good g →
      g' ∈ g.inner.denotes picker q → (root.territory f).Good g' := fun hg hg' => hg.inner.denotes_good hg'
  have hiff : g.HasCtorsOff T ↔ g.pair ∉ T ∧ g.TriesOff T :=
    Found.hasCtorsOff_iff hgood (fun hg' hpair => hnum.found_inj hg' hg hpair) hg
  by_cases hcut : (Question.ctorsOf g c).CutOn T
  · rw [answerOn_cut hcut] at h
    cases h
    refine .nil fun hctors => ?_
    obtain ⟨p, hp, hmem⟩ := hcut
    cases hp
    exact (hiff.1 hctors).1 hmem
  · have hpair : g.pair ∉ T := fun hmem => hcut ⟨_, rfl, hmem⟩
    rw [answerOn_open hcut] at h
    refine ListsCtors.congr ?_ (hiff.trans (and_iff_right hpair)).symm
    change (classCtorsSearch g.inner c).run (answerOn n (g.pair :: T)) = some ms at h
    have hown := ListsCtors.own c
    simp only [classCtorsSearch] at h
    split at h
    · rename_i hne
      cases h
      have hctors : c.ctors ≠ [] := hown.iff.1 (by simpa using hne)
      exact hown.congr ⟨fun _ => ⟨c, hc, .inl hctors⟩, fun _ => hctors⟩
    · rename_i hempty
      have hctors : c.ctors = [] := by
        by_contra hctors
        exact hown.iff.2 hctors (by simpa using hempty)
      have htries : g.TriesOff T ↔ ∃ i q targs, c.parent = some (.ref i q targs) ∧
          ∃ g' ∈ g.inner.denotes .classes q, g'.HasCtorsOff (g.pair :: T) := by
        constructor
        · rintro ⟨c', hc', h⟩
          cases hc.symm.trans hc'
          exact h.resolve_left fun hne => hne hctors
        · exact fun h => ⟨c, hc, .inr h⟩
      refine ListsCtors.congr ?_ htries.symm
      split at h
      · rename_i i q targs hpar
        simp only [Search.about, Search.run, bind_pure] at h
        have hT' : Trail.OfClasses root f (g.pair :: T) := by
          intro p hp
          rcases List.mem_cons.1 hp with rfl | hp
          · exact ⟨g, c, hg, hc, rfl⟩
          · exact hT p hp
        refine (ih hT' hg.inner h).congr ⟨fun h => ⟨i, q, targs, hpar, h⟩, ?_⟩
        rintro ⟨i', q', targs', hpar', h⟩
        cases hpar.symm.trans hpar'
        exact h
      · rename_i hpar
        cases h
        refine .nil ?_
        rintro ⟨i, q, targs, h, -⟩
        exact hpar i q targs h

end

/-- **A search for constructors finds some if there are any.** By induction on the number of questions
inside each other. -/
theorem Root.Numbered.ctors_listed (hnum : root.Numbered f) : ∀ (n : Nat) {T : Trail}, T.OfClasses root f →
    (∀ {g c ms}, (root.territory f).Good g → g.decl = .cls c → answerOn n T (.ctorsOf g c) = some ms →
      ListsCtors (g.HasCtorsOff T) ms) ∧
    ∀ {s q targs ms}, root.Enters f s → answerOn n T (.ctors s q targs) = some ms →
      ListsCtors (∃ g ∈ s.denotes .classes q, g.HasCtorsOff T) ms
  | 0, _, _ => ⟨fun _ _ h => (by cases h), fun _ h => (by cases h)⟩
  | n + 1, _, hT =>
    ⟨fun hg hc h => hnum.ctorsOf_step hT (fun hT => (hnum.ctors_listed n hT).2) hg hc h,
      fun hs h => hnum.ctors_step hT (hnum.ctors_listed n hT).1 hs h⟩

/-! ## What the classes of a file get -/

/-- The class, from inside of which `s` looks, gets constructors just if it has none and inherits some. -/
def Scope.Completes (s : Scope) (c : ClassDecl) (ctors : List Member) : Prop :=
  ListsCtors (c.ctors = [] ∧ s.Inherits c) ctors

theorem Root.Numbered.ctors_answerOn (hnum : root.Numbered f) (hs : root.Inside f s)
    (hcont : s.isContainer = false) {targs : List Ty} {ms : List Member}
    (h : (root.searches f).realm.MayAnswer (.ctors s q targs) ms) :
    answerOn (s.searchBound 1) [] (.ctors s q targs) = some ms := by
  have hQ := hs.ctors_in q targs
  have hunm : Unmixed (s.searchBound 1) [] (.ctors s q targs) :=
    Realm.unmixed (D := root.lineages f) hnum.lineage_of_pair _ (List.forall_mem_nil _)
      (.inr (.ctors hs.enters hcont))
  obtain ⟨⟨⟨ms', σ₀⟩, hrun, -⟩, -⟩ :=
    Query.ends_of_faithful hQ [] (Session.faithful_of_none (root.searches f).realm (σ := {}) rfl)
  have hplain := answerOn_of_run rfl hrun
  obtain ⟨σ, σ', hσ, h⟩ := h
  rw [hplain, hunm.answerOn_eq hnum.searches.apart hQ.1 hplain hσ h]

theorem Realm.Obtains.completes (hnum : root.Numbered f) (hs : root.Inside f s)
    (hcont : s.isContainer = false) {ctors : List Member}
    (h : (root.searches f).realm.Obtains s c ctors) : s.Completes c ctors := by
  cases h with
  | own hown => exact .nil fun h => hown h.1
  | orphan _ hpar => exact .nil fun ⟨_, i, q, targs, h, _⟩ => hpar i q targs h
  | @inherited i q targs ctors hown hpar h =>
    have hans := hnum.ctors_answerOn hs hcont h
    refine ((hnum.ctors_listed _ fun _ hp => absurd hp List.not_mem_nil).2 hs.enters hans).congr ?_
    simp only [Found.hasCtorsOff_nil]
    refine ⟨fun h => ⟨hown, i, q, targs, hpar, h⟩, ?_⟩
    rintro ⟨-, i', q', targs', hpar', h⟩
    cases hpar.symm.trans hpar'
    exact h

/-- **Every class without constructors gets some if it inherits some.** -/
theorem forwardCtors_completes (hnum : root.Numbered f) {w} :
    (root.seeks f).ends w (forwardCtors (.ofRoot root) f) fun e _ =>
      (Node.file f).Forwards Scope.Completes (.ofRoot root) (.file e.value) :=
  forwardCtors_forwards fun hs _ h => h.completes hnum hs rfl

end

end Ambient
