import Ambient.Proofs.Realm
import Ambient.Tree.Mentions

/-!
# Where searches go

A search starts in a scope and gets to others: those around, those of the dependencies, and those
inside declarations that it finds. What it finds is well rooted: the declaration stands in the
container of the scope that it is found with (`Scope.Holds`).

A `Territory` is a set of scopes closed under these moves, with the names and types that
declarations make a search follow from there. Its questions form a realm (`Territory.realm`): a
search that starts inside stays inside, and finds well rooted declarations only. A territory is plain
if only names, whatever they denote, imports and exports are asked about; that takes no members, keys
or constructors.
-/

namespace Ambient

/-! ## What declarations make a search follow -/

mutual

/-- The names that a search follows from a type, to members or to keys. -/
def Ty.followed : Ty → List QIdent
  | .ref _ x _ => [x]
  | .keyOf _ t => t.followed
  | .union _ ts => Ty.followedList ts
  | .intersect _ ts => Ty.followedList ts
  | _ => []

def Ty.followedList : List Ty → List QIdent
  | [] => []
  | t :: ts => t.followed ++ Ty.followedList ts

end

/-- The names that are looked up for what an import takes names from. -/
def Importee.lookedUp : Importee → List QIdent
  | .inner target => [target]
  | _ => []

/-- The names that are looked up where the declaration stands. -/
def Decl.lookedUp : Decl → List QIdent
  | .imports i => i.source.lookedUp
  | .exports _ (.names xs none) => xs.map (·.1)
  | _ => []

/-- The names that are looked up inside the declaration. -/
def Decl.followed : Decl → List QIdent
  | .iface i => i.inheritance.filterMap Ty.refName?
  | .cls c => (c.parent.toList ++ c.implements).filterMap Ty.refName?
  | .typeAlias a => a.target.followed
  | _ => []

variable {d : Decl} {f : Found} {x : Ident} {fs : List Found} {ts : List Ty} {q : QIdent} {s : Scope}
  {t : Ty}

theorem Ty.followed_of_mem (h : t ∈ ts) (hq : q ∈ t.followed) : q ∈ Ty.followedList ts := by
  induction ts with
  | nil => cases h
  | cons u us ih =>
    simp only [Ty.followedList, List.mem_append]
    rcases List.mem_cons.1 h with rfl | h
    · exact .inl hq
    · exact .inr (ih h)

/-! ## Well rooted declarations -/

/-- The declaration stands in the container that the scope is directly inside, as a member or
exported where it stands, or the scope is the root of a library and the declaration is that library
seen as a module. -/
def Scope.Holds (s : Scope) (d : Decl) : Prop :=
  d ∈ s.members ∨ (∃ h, .exports h (.inline d) ∈ s.members) ∨
    ∃ x lib, s.root.deps.find? x = some lib ∧ s.dependencyRoot? x = some s ∧ d = lib.module

theorem Scope.isContainer_of_isFile (h : s.isFile = true) : s.isContainer = true := by
  unfold isFile at h
  split at h
  · rename_i f hf
    simp [isContainer, hf, Node.isContainer, Node.members?]
  · cases h

/-- A set of scopes that searches do not leave: the imports and exports that stand there, the
declarations that are found there, and the names and types that are followed from there. -/
structure Territory where
  scope : Scope → Prop
  stands : Scope → Decl → Prop
  found : Scope → Decl → Prop
  name : Scope → QIdent → Prop
  ty : Scope → Ty → Prop
  plain : Prop
  container : ∀ {s c}, scope s → c ∈ s.outwards → c.isContainer = true → scope c
  root : ∀ {s r x}, scope s → s.dependencyRoot? x = some r → scope r
  file : ∀ {s s' x}, scope s → s.dependencyScope? x = some s' → scope s'
  enter : ∀ {s d}, scope s → found s d → scope (s.enter (.decl d))
  member : ∀ {s d}, scope s → d ∈ s.members → stands s d
  held : ∀ {s d}, scope s → s.Holds d → found s d
  exportee : ∀ {s h d}, scope s → stands s (.exports h (.inline d)) → found s d
  lookedUp : ∀ {s d q}, scope s → stands s d → q ∈ d.lookedUp → name s q
  followed : ¬ plain → ∀ {s d q}, scope s → found s d → q ∈ d.followed →
    name (s.enter (.decl d)) q
  target : ¬ plain → ∀ {s a}, scope s → found s (.typeAlias a) →
    ty (s.enter (.decl (.typeAlias a))) a.target
  part : ¬ plain → ∀ {s i ts t}, ty s (.union i ts) → t ∈ ts → ty s t
  tyName : ¬ plain → ∀ {s t q}, ty s t → q ∈ t.followed → name s q

namespace Territory

/-- The declaration was found where it may be found. -/
def Good (T : Territory) (f : Found) : Prop := T.scope f.scope ∧ T.found f.scope f.decl

def asked (T : Territory) : Question → Prop
  | .name picker s q => T.scope s ∧ T.name s q ∧ (T.plain → picker = .all)
  | .imported s i => T.scope s ∧ T.stands s (.imports i)
  | .exported s h e => T.scope s ∧ T.stands s (.exports h e)
  | .members s q => ¬ T.plain ∧ T.scope s ∧ T.name s q
  | .contribution f => ¬ T.plain ∧ T.Good f
  | .keys s t => ¬ T.plain ∧ T.scope s ∧ T.ty s t
  | .aliasKeys f t => ¬ T.plain ∧ T.Good f ∧ ∃ a, f.decl = .typeAlias a ∧ t = a.target
  | .ctors s q _ => ¬ T.plain ∧ T.scope s ∧ T.name s q
  | .ctorsOf f c => ¬ T.plain ∧ T.Good f ∧ f.decl = .cls c

/-- What the answers to the questions of the territory are like. -/
def given (T : Territory) : (q : Question) → q.Answer → Prop
  | .name picker _ _, fs => ∀ f ∈ fs, T.Good f ∧ picker.pick f.decl = true
  | .imported _ _, bs => ∀ b ∈ bs, T.Good b.found
  | .exported _ _ _, bs => ∀ b ∈ bs, T.Good b.found
  | _, _ => True

variable {T : Territory}

theorem Good.inner (h : T.Good f) : T.scope f.inner := T.enter h.1 h.2

/-! ## Modules and augmentations -/

theorem good_of_member (hs : T.scope s) (hd : d ∈ s.members) : T.Good ⟨d, s⟩ :=
  ⟨hs, T.held hs (.inl hd)⟩

theorem fileScope_scope {file : Scope} (hs : T.scope s) (h : s.fileScope? = some file) : T.scope file :=
  T.container hs (List.mem_of_find?_eq_some h) (Scope.isContainer_of_isFile (List.find?_some h))

theorem good_of_modulesNamed (hs : T.scope s) (hf : f ∈ s.modulesNamed x) : T.Good f := by
  obtain ⟨d, hd, he⟩ := List.mem_filterMap.1 hf
  split at he
  · split at he
    · cases he
      exact good_of_member hs hd
    · cases he
  · cases he

theorem good_of_moduleScopes (hs : T.scope s) (hf : f ∈ s.moduleScopes x) : T.Good f := by
  rcases List.mem_append.1 hf with hf | hf
  · obtain ⟨s', hs', hf⟩ := List.mem_flatMap.1 hf
    refine good_of_modulesNamed ?_ hf
    rcases List.mem_append.1 hs' with hs' | hs'
    · exact fileScope_scope hs (Option.mem_toList.1 hs')
    · obtain ⟨y, -, hy⟩ := List.mem_filterMap.1 hs'
      exact T.file hs hy
  · obtain ⟨d, hd, hf⟩ := List.mem_flatMap.1 hf
    obtain ⟨r, hr, rfl⟩ := List.mem_map.1 hf
    have hd' : s.root.deps.find? x = some d := Option.mem_toList.1 hd
    have hr' : s.dependencyRoot? x = some r := Option.mem_toList.1 hr
    have hsr := T.root hs hr'
    refine ⟨hsr, T.held hsr (.inr (.inr ⟨x, d, ?_, ?_, rfl⟩))⟩
    · simp only [Scope.dependencyRoot?, hd', Option.map_some, Option.some.injEq] at hr'
      subst hr'
      exact hd'
    · simp only [Scope.dependencyRoot?, hd', Option.map_some, Option.some.injEq] at hr'
      subst hr'
      simp [Scope.dependencyRoot?, Scope.ofRoot, hd']

theorem good_of_augmentations (hs : T.scope s) (hf : f ∈ s.augmentations) : T.Good f := by
  obtain ⟨file, hfile, hf⟩ := List.mem_flatMap.1 hf
  have hfs : T.scope file := fileScope_scope hs (Option.mem_toList.1 hfile)
  obtain ⟨d, hd, hf⟩ := List.mem_flatMap.1 hf
  split at hf
  · rw [List.mem_singleton] at hf
    subst hf
    exact good_of_member hfs hd
  · obtain ⟨d', hd', he⟩ := List.mem_filterMap.1 hf
    split at he
    · cases he
      exact good_of_member (good_of_member hfs hd).inner hd'
    · cases he
  · cases hf

theorem scope_of_dependencyScopes {s' : Scope} (hs : T.scope s) (h : s' ∈ s.dependencyScopes) :
    T.scope s' := by
  obtain ⟨y, -, hy⟩ := List.mem_filterMap.1 h
  exact T.file hs hy

/-! ## Names -/

/-- All that the search finds is good. -/
abbrev Finds (T : Territory) (p : Search (List Found)) : Prop :=
  p.Ensures T.asked T.given fun fs => ∀ f ∈ fs, T.Good f

abbrev Binds (T : Territory) (p : Search (List Binding)) : Prop :=
  p.Ensures T.asked T.given fun bs => ∀ b ∈ bs, T.Good b.found

theorem good_bindingsOf {bs : List Binding} (h : ∀ b ∈ bs, T.Good b.found) :
    ∀ f ∈ bindingsOf x bs, T.Good f := by
  intro f hf
  obtain ⟨b, hb, rfl⟩ := List.mem_map.1 hf
  exact h b (List.mem_filter.1 hb |>.1)

theorem good_bindAll (h : ∀ f ∈ fs, T.Good f) : ∀ b ∈ bindAll x fs, T.Good b.found := by
  intro b hb
  obtain ⟨f, hf, rfl⟩ := List.mem_map.1 hb
  exact h f hf

theorem good_rebind {y : Ident} {bs : List Binding} (h : ∀ b ∈ bs, T.Good b.found) :
    ∀ b ∈ rebind x y bs, T.Good b.found :=
  good_bindAll (good_bindingsOf h)

theorem finds_if {c : Prop} [Decidable c] (hs : T.scope s) (hd : s.Holds d) :
    T.Finds (.done (if c then [⟨d, s⟩] else [])) := by
  intro f hf
  split at hf
  · rw [List.mem_singleton] at hf
    subst hf
    exact ⟨hs, T.held hs hd⟩
  · cases hf

mutual

theorem finds_findIn (x : Ident) {s : Scope} (hs : T.scope s) (d : Decl) (hd : d ∈ s.members) :
    T.Finds (findIn x s d) := by
  cases d with
  | global h ms =>
    rw [findIn]
    exact finds_findInList x (good_of_member hs hd).inner ms fun d hd => hd
  | imports i =>
    rw [findIn]
    refine .bind (.about ⟨hs, T.member hs hd⟩ fun _ h => h) fun bs hbs => ?_
    exact good_bindingsOf hbs
  | exports h e =>
    cases e with
    | inline d =>
      have hd' : s.Holds d := .inr (.inl ⟨h, hd⟩)
      cases d with
      | module _ _ => exact .nil
      | augmentation _ _ => exact .nil
      | _ => exact finds_if hs hd'
    | names _ _ => exact .nil
    | star _ _ => exact .nil
  | module _ _ | augmentation _ _ | exportAs _ => exact .nil
  | _ => exact finds_if hs (.inl hd)

theorem finds_findInList (x : Ident) {s : Scope} (hs : T.scope s) (ds : List Decl)
    (hds : ∀ d ∈ ds, d ∈ s.members) : T.Finds (findInList x s ds) := by
  match ds with
  | [] => exact .nil
  | d :: ds =>
    rw [findInList]
    refine (finds_findIn x hs d (hds d (.head _))).bind fun fs hfs => ?_
    refine (finds_findInList x hs ds fun d hd => hds d (.tail _ hd)).bind ?_
    intro fs' hfs' f hf
    rcases List.mem_append.1 hf with hf | hf
    · exact hfs f hf
    · exact hfs' f hf

end

theorem binds_exportedFrom (hs : T.scope s) (hd : d ∈ s.members) : T.Binds (exportedFrom s d) := by
  have hname : T.Binds (.done (d.name?.map fun x => ⟨x, ⟨d, s⟩⟩).toList) := by
    intro b hb
    obtain ⟨x, -, rfl⟩ := Option.map_eq_some_iff.1 (Option.mem_toList.1 hb)
    exact good_of_member hs hd
  cases d with
  | exports h e => exact .about ⟨hs, T.member hs hd⟩ fun _ h => h
  | imports _ | global _ _ | exportAs _ | module _ _ | augmentation _ _ => exact .nil
  | _ => exact hname

theorem binds_exportedBy (hs : T.scope s) : T.Binds (exportedBy s) :=
  .concatMapM fun _ hd => binds_exportedFrom hs hd

/-- All that the search finds is good and picked. -/
abbrev Picks (T : Territory) (picker : Picker) (p : Search (List Found)) : Prop :=
  p.Ensures T.asked T.given fun fs => ∀ f ∈ fs, T.Good f ∧ picker.pick f.decl = true

theorem picks_resolveTail (picker : Picker) (tail : List Ident) (hfs : ∀ f ∈ fs, T.Good f) :
    T.Picks picker (resolveTail picker tail fs) := by
  induction tail generalizing fs with
  | nil =>
    intro f hf
    obtain ⟨hf, hp⟩ := List.mem_filter.1 hf
    exact ⟨hfs f hf, hp⟩
  | cons x rest ih =>
    refine .concatMapM fun f hf => ?_
    split
    · intro f' hf'
      split at hf'
      · rename_i hp
        rw [List.mem_singleton] at hf'
        subst hf'
        exact ⟨hfs f' hf, (Bool.and_eq_true _ _ ▸ hp).2⟩
      · cases hf'
    · exact (binds_exportedBy (hfs f hf).inner).bind fun bs hbs => ih (good_bindingsOf hbs)

theorem picks_lookupInside (picker : Picker) (head : Ident) (tail : List Ident) (hs : T.scope s) :
    T.Picks picker (lookupInside picker head tail s) :=
  (finds_findInList head hs s.members fun _ hd => hd).bind fun _ hfs =>
    picks_resolveTail picker tail hfs

theorem picks_lookupThrough (picker : Picker) (hs : T.scope s) (head : Ident) (tail : List Ident) :
    T.Picks picker (lookupThrough picker s head tail) := by
  refine .orElse (.firstNonempty (List.forall_mem_nil _) fun s' hs' => ?_) ?_
  · have hs' := List.mem_filter.1 hs'
    exact picks_lookupInside picker head tail (T.container hs hs'.1 hs'.2)
  refine .orElse (.concatMapM fun f hf => ?_) ?_
  · refine picks_resolveTail picker tail fun f' hf' => ?_
    rw [List.mem_singleton] at hf'
    exact hf' ▸ good_of_moduleScopes hs hf
  refine .orElse (.concatMapM fun f hf => ?_) (.concatMapM fun s' hs' => ?_)
  · exact picks_lookupInside picker head tail (good_of_augmentations hs hf).inner
  · exact picks_lookupInside picker head tail (scope_of_dependencyScopes hs hs')

theorem picks_nameSearch (picker : Picker) (hs : T.scope s) (q : QIdent) :
    T.Picks picker (nameSearch picker s q) := by
  cases q with
  | nil => exact .nil
  | cons head tail =>
    rw [nameSearch]
    split
    · exact .nil
    · exact picks_lookupThrough picker hs head tail

/-! ## Imports and exports -/

theorem binds_importForms {plain : Ident → Search (List Binding)} {modules : List Found}
    (hplain : ∀ x, T.Binds (plain x)) (hm : ∀ f ∈ modules, T.Good f) (xs : List Imported) :
    T.Binds (importForms plain modules xs) := by
  refine .concatMapM fun x _ => ?_
  split
  · exact hplain _
  · exact good_bindAll hm
  · exact .nil
  · refine .concatMapM fun f hf => ?_
    refine (binds_exportedBy (hm f hf).inner).bind fun bs hbs b hb => ?_
    obtain ⟨p, -, hb⟩ := List.mem_flatMap.1 hb
    exact good_rebind hbs b hb

theorem binds_importSearch (hs : T.scope s) {i : ImportDecl} (hi : T.stands s (.imports i)) :
    T.Binds (importSearch s i) := by
  have hm : ∀ m, ∀ f ∈ s.moduleScopes m, T.Good f := fun m f hf => good_of_moduleScopes hs hf
  unfold importSearch
  split
  · rename_i target ht
    have hn : T.name s target := T.lookedUp hs hi (by simp [Decl.lookedUp, ht, Importee.lookedUp])
    refine .concatMapM fun x _ => ?_
    split
    · refine .bind (.about ⟨hs, hn, fun _ => rfl⟩ fun fs hfs => hfs) fun fs hfs => ?_
      exact good_bindAll fun f hf => (hfs f hf).1
    · exact .nil
  · refine binds_importForms (fun x => ?_) (hm _) _
    exact good_bindAll (hm _)
  · refine binds_importForms (fun x => .concatMapM fun f hf => ?_) (hm _) _
    exact (binds_exportedBy (hm _ f hf).inner).bind fun bs hbs => good_rebind hbs

theorem binds_exportSearch (hs : T.scope s) {h : ExportHead} {e : Exportee}
    (he : T.stands s (.exports h e)) : T.Binds (exportSearch s h e) := by
  have hm : ∀ m, ∀ f ∈ s.moduleScopes m, T.Good f := fun m f hf => good_of_moduleScopes hs hf
  unfold exportSearch
  split
  · intro b hb
    obtain ⟨x, -, rfl⟩ := Option.map_eq_some_iff.1 (Option.mem_toList.1 hb)
    exact ⟨hs, T.exportee hs he⟩
  · refine .concatMapM fun p hp => ?_
    have hn : T.name s p.1 := T.lookedUp hs he (List.mem_map_of_mem hp)
    refine .bind (.about ⟨hs, hn, fun _ => rfl⟩ fun fs hfs => hfs) fun fs hfs => ?_
    have hfs : ∀ f ∈ fs, T.Good f := fun f hf => (hfs f hf).1
    split
    · refine .concatMapM fun f hf => ?_
      refine (binds_exportedBy (hfs f hf).inner).bind fun bs hbs b hb => ?_
      rcases List.mem_append.1 hb with hb | hb
      · exact hbs b hb
      · rw [List.mem_singleton] at hb
        subst hb
        exact hfs f hf
    · exact good_bindAll hfs
    · split
      · exact good_bindAll hfs
      · exact .nil
  · refine .concatMapM fun f hf => ?_
    refine (binds_exportedBy (hm _ f hf).inner).bind fun bs hbs b hb => ?_
    obtain ⟨⟨q, y⟩, -, hb⟩ := List.mem_flatMap.1 hb
    dsimp only at hb
    split at hb
    · exact good_rebind hbs b hb
    · cases hb
  · exact good_bindAll (hm _)
  · refine .concatMapM fun f hf => ?_
    refine (binds_exportedBy (hm _ f hf).inner).bind fun bs hbs b hb => ?_
    exact hbs b (List.mem_filter.1 hb).1

/-! ## Members, keys and constructors -/

/-- The search asks questions of the territory only. -/
abbrev Asks {α : Type} (T : Territory) (p : Search α) : Prop :=
  p.Ensures T.asked T.given fun _ => True

theorem asks_membersOfParent (hT : ¬ T.plain) (hs : T.scope s)
    (ht : ∀ q, t.refName? = some q → T.name s q) : T.Asks (membersOfParent s t) := by
  cases t with
  | ref i x ts =>
    exact .bind (.about ⟨hT, hs, ht x rfl⟩ fun _ h => h) fun _ _ => trivial
  | _ => trivial

theorem asks_membersOfParents (hT : ¬ T.plain) (hs : T.scope s)
    (hts : ∀ q ∈ ts.filterMap Ty.refName?, T.name s q) : T.Asks (concatMapM (membersOfParent s) ts) :=
  .concatMapM_any fun t ht => asks_membersOfParent hT hs fun q hq =>
    hts q (List.mem_filterMap.2 ⟨t, ht, hq⟩)

mutual

theorem asks_membersOfAlias (hT : ¬ T.plain) {s : Scope} (hs : T.scope s) (t : Ty)
    (ht : ∀ q ∈ t.followed, T.name s q) : T.Asks (membersOfAlias s t) := by
  cases t with
  | ref i x ts =>
    exact .about ⟨hT, hs, ht x (by simp [Ty.followed])⟩ fun _ _ => trivial
  | intersect i ts => exact asks_membersOfAliases hT hs ts ht
  | _ => trivial

theorem asks_membersOfAliases (hT : ¬ T.plain) {s : Scope} (hs : T.scope s) (ts : List Ty)
    (hts : ∀ q ∈ Ty.followedList ts, T.name s q) : T.Asks (membersOfAliases s ts) := by
  match ts with
  | [] => trivial
  | t :: ts =>
    simp only [Ty.followedList, List.mem_append] at hts
    rw [membersOfAliases]
    refine (asks_membersOfAlias hT hs t fun q hq => hts q (.inl hq)).bind fun ms _ => ?_
    cases ms with
    | none => trivial
    | some ms =>
      refine (asks_membersOfAliases hT hs ts fun q hq => hts q (.inr hq)).bind fun ns _ => ?_
      cases ns <;> trivial

end

theorem asks_contributionOf (hT : ¬ T.plain) (hs : T.scope s) (hd : ∀ q ∈ d.followed, T.name s q) :
    T.Asks (contributionOf s d) := by
  cases d with
  | iface i | cls c => exact (asks_membersOfParents hT hs hd).bind fun _ _ => trivial
  | typeAlias a =>
    refine (asks_membersOfAlias hT hs a.target hd).bind fun ms _ => ?_
    cases ms <;> trivial
  | _ => trivial

theorem asks_contributionSearch (hT : ¬ T.plain) (hf : T.Good f) : T.Asks (contributionSearch f) :=
  (asks_contributionOf hT hf.inner fun _ hq => T.followed hT hf.1 hf.2 hq).bind fun _ _ => trivial

theorem asks_membersSearch (hT : ¬ T.plain) (hs : T.scope s) (hq : T.name s q) :
    T.Asks (membersSearch s q) := by
  unfold membersSearch
  split
  · trivial
  · refine .bind (.about ⟨hs, hq, fun h => absurd h hT⟩ fun _ h => h) fun fs hfs => ?_
    refine .bind (.concatMapM_any fun f hf => ?_) fun _ _ => trivial
    exact .about ⟨hT, (hfs f hf).1⟩ fun _ _ => trivial

theorem asks_keysOfAlias (hT : ¬ T.plain) (hf : T.Good f) : T.Asks (keysOfAlias f) := by
  unfold keysOfAlias
  split
  · rename_i a ha
    split
    · exact .about ⟨hT, hf, a, ha, rfl⟩ fun _ _ => trivial
    · trivial
  · trivial

theorem asks_keysOfAliases (hT : ¬ T.plain) (hfs : ∀ f ∈ fs, T.Good f) : T.Asks (keysOfAliases fs) := by
  induction fs with
  | nil => trivial
  | cons f fs ih =>
    refine (asks_keysOfAlias hT (hfs f (.head _))).bind fun ks _ => ?_
    cases ks with
    | none => exact ih fun f hf => hfs f (.tail _ hf)
    | some ks => trivial

theorem asks_keysOfUnion (hT : ¬ T.plain) (hs : T.scope s) (hts : ∀ t ∈ ts, T.ty s t) :
    T.Asks (keysOfUnion s ts) := by
  induction ts with
  | nil => trivial
  | cons t ts ih =>
    refine .bind (.about ⟨hT, hs, hts t (.head _)⟩ fun _ h => h) fun ks _ => ?_
    cases ks with
    | none => trivial
    | some ks =>
      refine (ih fun t ht => hts t (.tail _ ht)).bind fun ls _ => ?_
      cases ls <;> trivial

theorem asks_keysSearch (hT : ¬ T.plain) (hs : T.scope s) (ht : T.ty s t) : T.Asks (keysSearch s t) := by
  unfold keysSearch
  split
  · trivial
  · exact (asks_keysOfUnion hT hs fun t h => T.part hT ht h).bind fun _ _ => trivial
  · unfold keysOfTarget
    split
    · trivial
    · rename_i i' i x ts
      split
      · trivial
      · have hn : T.name s x := T.tyName hT ht (by simp [Ty.followed])
        exact .bind (.about ⟨hT, hs, hn⟩ fun _ h => h) fun _ _ => trivial
    · trivial
  · rename_i i x
    split
    · trivial
    · have hn : T.name s x := T.tyName hT ht (by simp [Ty.followed])
      refine .bind (.about ⟨hs, hn, fun h => absurd h hT⟩ fun _ h => h) fun fs hfs => ?_
      exact asks_keysOfAliases hT fun f hf => (hfs f hf).1
  · trivial

theorem asks_ctorsSearch (hT : ¬ T.plain) (hs : T.scope s) (hq : T.name s q) (targs : List Ty) :
    T.Asks (ctorsSearch s q targs) := by
  refine .bind (.about ⟨hs, hq, fun h => absurd h hT⟩ fun _ h => h) fun fs hfs => ?_
  refine .firstNonempty trivial fun f hf => ?_
  unfold ctorsOfFound
  split
  · rename_i c hc
    exact .bind (.about ⟨hT, (hfs f hf).1, hc⟩ fun _ h => h) fun _ _ => trivial
  · trivial

theorem asks_classCtorsSearch (hT : ¬ T.plain) (hf : T.Good f) {c : ClassDecl} (hc : f.decl = .cls c) :
    T.Asks (classCtorsSearch f.inner c) := by
  unfold classCtorsSearch
  dsimp only
  split
  · trivial
  split
  · rename_i i q ts hp
    have hn : T.name f.inner q := T.followed hT hf.1 hf.2 (by simp [hc, Decl.followed, hp, Ty.refName?])
    exact .about ⟨hT, hf.inner, hn⟩ fun _ _ => trivial
  · trivial

/-! ## The realm -/

/-- **A search in the territory stays in it**, and what it finds is good. -/
theorem search_ensures {q : Question} (hq : T.asked q) :
    q.search.Ensures T.asked T.given (T.given q) := by
  cases q with
  | name picker s q => exact picks_nameSearch picker hq.1 q
  | imported s i => exact binds_importSearch hq.1 hq.2
  | exported s h e => exact binds_exportSearch hq.1 hq.2
  | members s q => exact asks_membersSearch hq.1 hq.2.1 hq.2.2
  | contribution f => exact asks_contributionSearch hq.1 hq.2
  | keys s t => exact asks_keysSearch hq.1 hq.2.1 hq.2.2
  | aliasKeys f t =>
    obtain ⟨hT, hf, a, ha, rfl⟩ := hq
    have ht : T.ty f.inner a.target := by
      have := T.target hT hf.1 (ha ▸ hf.2)
      rwa [← ha] at this
    exact .about ⟨hT, hf.inner, ht⟩ fun _ _ => trivial
  | ctors s q targs => exact asks_ctorsSearch hq.1 hq.2.1 hq.2.2 targs
  | ctorsOf f c => exact asks_classCtorsSearch hq.1 hq.2.1 hq.2.2

/-- The questions of the territory, with what their answers are like. -/
def realm (T : Territory) : Realm where
  asked := T.asked
  given := T.given
  search _ hq := search_ensures hq
  unanswered q _ := by
    cases q <;> simp [given, Question.unanswered]

end Territory

end Ambient
