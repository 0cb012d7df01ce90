import Ambient.Proofs.Forgetful
import Ambient.Proofs.Library
import Ambient.Proofs.Outline

/-!
# The same places in two files

Two files with one outline have the same places (`Root.Parallel`), whatever their declarations say besides
and however they are numbered. The numbers of each file tell its places apart, so a search from a place in
one file is cut where the search from the same place in the other is, and names denote what is at the same
places (`Root.Parallel.denotes`).
-/

namespace Ambient

/-- The declarations stand at the same place, where two scopes can be entered from. -/
inductive Root.Alongside (root : Root) (s t : Scope) : Decl → Decl → Prop
  | member {k : Nat} {d e : Decl} (hd : s.members[k]? = some d) (he : t.members[k]? = some e) :
    Alongside root s t d e
  | exportee {k : Nat} {x y : ExportHead} {d e : Decl}
    (hd : s.members[k]? = some (.exports x (.inline d)))
    (he : t.members[k]? = some (.exports y (.inline e))) : Alongside root s t d e
  | inside {x y : ExportHead} {d e : Decl} (hd : s.current? = some (.decl (.exports x (.inline d))))
    (he : t.current? = some (.decl (.exports y (.inline e)))) : Alongside root s t d e
  | module {x : Ident} {lib : Dependency} (h : root.deps.find? x = some lib)
    (hs : s = (Scope.ofRoot root).library lib) (ht : t = (Scope.ofRoot root).library lib) :
    Alongside root s t lib.module lib.module

/-- The scopes are at the same place of a library, whose file is `f` or `g`. -/
inductive Root.Parallel (root : Root) (f g : File) : Scope → Scope → Prop
  | file : Parallel root f g ((Scope.ofRoot root).enter (.file f)) ((Scope.ofRoot root).enter (.file g))
  | library {x : Ident} {lib : Dependency} (h : root.deps.find? x = some lib) :
    Parallel root f g ((Scope.ofRoot root).library lib) ((Scope.ofRoot root).library lib)
  | dependency {x : Ident} {lib : Dependency} (h : root.deps.find? x = some lib) :
    Parallel root f g (((Scope.ofRoot root).library lib).enter (.file lib.file))
      (((Scope.ofRoot root).library lib).enter (.file lib.file))
  | enter {s t : Scope} {d e : Decl} (hs : Parallel root f g s t) (hd : root.Alongside s t d e) :
    Parallel root f g (s.enter (.decl d)) (t.enter (.decl e))

section
variable {root : Root} {f g : File} {s t : Scope} {d e : Decl}

theorem Root.Alongside.symm (h : root.Alongside s t d e) : root.Alongside t s e d := by
  cases h with
  | member hd he => exact .member he hd
  | exportee hd he => exact .exportee he hd
  | inside hd he => exact .inside he hd
  | module h hs ht => exact .module h ht hs

theorem Root.Parallel.symm (h : root.Parallel f g s t) : root.Parallel g f t s := by
  induction h with
  | file => exact .file
  | library h => exact .library h
  | dependency h => exact .dependency h
  | enter _ hd ih => exact .enter ih hd.symm

theorem Root.Alongside.next (h : root.Alongside s t d e) : root.Next s (.decl d) := by
  cases h with
  | member hd => exact .of_mem (List.mem_of_getElem? hd) d.mem_entries_self
  | exportee hd => exact .of_mem (List.mem_of_getElem? hd) (.tail _ (.head _))
  | inside hd =>
    rw [Root.Next, hd]
    exact Node.children_subset_entries _ (.head _)
  | module h hs => exact hs ▸ ⟨_, _, h, rfl, .tail _ (.head _)⟩

theorem Root.Parallel.enters (h : root.Parallel f g s t) : root.Enters f s := by
  induction h with
  | file => exact .file
  | library h => exact .library h
  | dependency h => exact .enter (.library h) ⟨_, _, h, rfl, .head _⟩
  | enter _ hd ih => exact .enter ih hd.next

/-! ## Places are told apart -/

theorem Root.Numbered.index_inj (hnum : root.Numbered f) (hs : root.Enters f s) {k l : Nat} {d₀ e₀ : Decl}
    (hk : s.members[k]? = some d₀) (hl : s.members[l]? = some e₀) (hd : .decl d ∈ d₀.entries)
    (he : .decl e ∈ e₀.entries) (hid : d.id = e.id) : k = l := by
  obtain ⟨n, ds, hn, hds, -⟩ := Scope.mem_members.1 (List.mem_of_getElem? hk)
  have hmems : s.members = ds := by rw [Scope.members, hn, Option.bind_some, hds]; rfl
  have hdist := (hnum.current hs hn).distinct
  rw [Node.entries, hds, List.pairwise_flatMap] at hdist
  rw [hmems] at hk hl
  have hpairs := List.pairwise_iff_getElem.1 hdist.2
  obtain ⟨hk', rfl⟩ := List.getElem?_eq_some_iff.1 hk
  obtain ⟨hl', rfl⟩ := List.getElem?_eq_some_iff.1 hl
  rcases Nat.lt_trichotomy k l with hlt | heq | hlt
  · cases (hpairs k l hk' hl' hlt _ hd _ he hid).1
  · exact heq
  · cases (hpairs l k hl' hk' hlt _ he _ hd hid.symm).1

theorem Root.Numbered.exportee_ne (hnum : root.Numbered f) (hs : root.Enters f s) {x : ExportHead}
    (hd : .exports x (.inline d) ∈ s.members) : (Decl.exports x (.inline d)).id ≠ d.id := by
  obtain ⟨n, ds, hn, hds, hd⟩ := Scope.mem_members.1 hd
  have hdist := (hnum.current hs hn).distinct
  rw [Node.entries, hds, List.pairwise_flatMap] at hdist
  intro hid
  have hpair := List.rel_of_pairwise_cons (hdist.1 _ hd) (List.mem_singleton_self (Node.decl d)) hid
  cases hpair.1

theorem Root.Alongside.inj_member (hnum : root.Numbered f) (hs : root.Enters f s) {k : Nat} {d₀ e₀ d' e' : Decl}
    (hd : s.members[k]? = some d₀) (he : t.members[k]? = some e₀)
    (h : d = d₀ ∧ e = e₀ ∨ ∃ x y, d₀ = .exports x (.inline d) ∧ e₀ = .exports y (.inline e))
    (h' : root.Alongside s t d' e') (hid : d.id = d'.id) : d = d' ∧ e = e' := by
  have hentry : .decl d ∈ d₀.entries := by
    rcases h with ⟨rfl, -⟩ | ⟨x, y, rfl, -⟩
    · exact d.mem_entries_self
    · exact .tail _ (.head _)
  cases h' with
  | member hd' he' =>
    obtain rfl := hnum.index_inj hs hd hd' hentry (Decl.mem_entries_self _) hid
    cases hd.symm.trans hd'
    cases he.symm.trans he'
    rcases h with h | ⟨x, y, rfl, rfl⟩
    · exact h
    · exact absurd hid.symm (hnum.exportee_ne hs (List.mem_of_getElem? hd))
  | exportee hd' he' =>
    obtain rfl := hnum.index_inj hs hd hd' hentry (.tail _ (.head _)) hid
    cases hd.symm.trans hd'
    cases he.symm.trans he'
    rcases h with ⟨rfl, rfl⟩ | ⟨x, y, hdx, hey⟩
    · exact absurd hid (hnum.exportee_ne hs (List.mem_of_getElem? hd))
    · cases hdx
      cases hey
      exact ⟨rfl, rfl⟩
  | inside hd' =>
    rw [Scope.members, hd'] at hd
    cases hd
  | module _ hs' =>
    rw [hs'] at hd
    cases hd

/-- **A place is told apart by its number.** -/
theorem Root.Alongside.inj (hnum : root.Numbered f) (hs : root.Enters f s) {d' e' : Decl}
    (h : root.Alongside s t d e) (h' : root.Alongside s t d' e') (hid : d.id = d'.id) : d = d' ∧ e = e' := by
  cases h with
  | member hd he => exact h'.inj_member hnum hs hd he (.inl ⟨rfl, rfl⟩) hid
  | exportee hd he => exact h'.inj_member hnum hs hd he (.inr ⟨_, _, rfl, rfl⟩) hid
  | inside hd he =>
    have hmems : s.members = [] := by
      rw [Scope.members, hd]
      rfl
    cases h' with
    | member hd' | exportee hd' =>
      rw [hmems] at hd'
      cases hd'
    | inside hd' he' =>
      cases hd.symm.trans hd'
      cases he.symm.trans he'
      exact ⟨rfl, rfl⟩
    | module _ hs' =>
      rw [hs'] at hd
      cases hd
  | @module x lib h hs ht =>
    subst hs
    cases h' with
    | member hd' | exportee hd' => cases hd'
    | inside hd' => cases hd'
    | @module x' lib' h' hs' =>
      have hname : lib.name = lib'.name := congrArg (·.root.lib) hs'
      rw [Dependencies.find?_name h, Dependencies.find?_name h'] at hname
      subst hname
      cases h.symm.trans h'
      exact ⟨rfl, rfl⟩

theorem Scope.enter_inj {n n' : Node} {s' : Scope} (h : s.enter n = s'.enter n') : s = s' ∧ n = n' := by
  obtain ⟨root, frames⟩ := s
  obtain ⟨root', frames'⟩ := s'
  simp only [Scope.enter, Scope.mk.injEq, List.cons.injEq, Frame.mk.injEq] at h
  obtain ⟨rfl, ⟨rfl, -⟩, rfl⟩ := h
  exact ⟨rfl, rfl⟩

/-- **Each scope has one place in the other file.** -/
theorem Root.Parallel.unique (hnum : root.Numbered f) (h : root.Parallel f g s t) {s' t' : Scope}
    (h' : root.Parallel f g s' t') (hss' : s = s') : t = t' := by
  have hfile : ∀ {x lib}, root.deps.find? x = some lib →
      (Scope.ofRoot root).enter (.file f) ≠ ((Scope.ofRoot root).library lib).enter (.file lib.file) :=
    fun {x lib} hlib heq => hnum.file_ne (s := (Scope.ofRoot root).library lib) rfl
      ⟨x, lib, hlib, rfl, .head _⟩ (congrArg Node.id (Scope.enter_inj heq).2)
  induction h generalizing s' t' with
  | file =>
    cases h' with
    | file => rfl
    | library => cases congrArg (·.frames) hss'
    | dependency h => exact absurd hss' (hfile h)
    | enter => cases (Scope.enter_inj hss').2
  | library =>
    cases h' with
    | file => cases congrArg (·.frames) hss'
    | library => exact hss'
    | dependency => cases congrArg (·.frames) hss'
    | enter => cases congrArg (·.frames) hss'
  | dependency h =>
    cases h' with
    | file => exact absurd hss'.symm (hfile h)
    | library => cases congrArg (·.frames) hss'
    | dependency => exact hss'
    | enter => cases (Scope.enter_inj hss').2
  | enter hs hd ih =>
    cases h' with
    | file => cases (Scope.enter_inj hss').2
    | library => cases congrArg (·.frames) hss'
    | dependency => cases (Scope.enter_inj hss').2
    | enter hs' hd' =>
      obtain ⟨rfl, hdecl⟩ := Scope.enter_inj hss'
      obtain rfl := ih hs' rfl
      rw [(hd.inj hnum hs.enters hd' (congrArg Node.id hdecl)).2]

/-! ## Searches at the same places -/

/-- The nodes are files or declarations with one outline. -/
inductive Node.SameOutline : Node → Node → Prop
  | file {f g : File} (h : Decl.outlineList f.members = Decl.outlineList g.members) :
    SameOutline (.file f) (.file g)
  | decl {d e : Decl} (h : d.outline = e.outline) : SameOutline (.decl d) (.decl e)

theorem Node.SameOutline.members {n m : Node} (h : n.SameOutline m) :
    n.members?.map Decl.outlineList = m.members?.map Decl.outlineList := by
  cases h with
  | file h => exact congrArg some h
  | decl h => exact Decl.members_of_outline h

theorem Scope.members_outline (h : Option.Rel Node.SameOutline s.current? t.current?) :
    s.members.map Decl.outline = t.members.map Decl.outline := by
  rw [← Decl.outlineList_eq_map, ← Decl.outlineList_eq_map, Scope.members, Scope.members]
  generalize s.current? = n, t.current? = m at h
  cases h with
  | none => rfl
  | @some n m h =>
    have hmems := h.members
    simp only [Option.bind_some]
    cases hn : n.members? <;> cases hm : m.members? <;> rw [hn, hm] at hmems <;> simp_all

theorem Root.Alongside.outline_eq (h : root.Alongside s t d e)
    (hst : Option.Rel Node.SameOutline s.current? t.current?) : d.outline = e.outline := by
  have hmems := Scope.members_outline hst
  have hindex : ∀ {k : Nat} {d e : Decl}, s.members[k]? = some d → t.members[k]? = some e →
      d.outline = e.outline := by
    intro k d e hd he
    have hk := congrArg (·[k]?) hmems
    simpa [hd, he] using hk
  have hinl : ∀ {x y : ExportHead} {d e : Decl},
      (Decl.exports x (.inline d)).outline = (Decl.exports y (.inline e)).outline → d.outline = e.outline := by
    intro x y d e h
    simp only [Decl.outline, Exportee.outline, Decl.exports.injEq, Exportee.inline.injEq] at h
    exact h.2
  cases h with
  | member hd he => exact hindex hd he
  | exportee hd he => exact hinl (hindex hd he)
  | inside hd he =>
    rw [hd, he] at hst
    cases hst with
    | some h => cases h with | decl h => exact hinl h
  | module => rfl

section
variable (hout : Decl.outlineList f.members = Decl.outlineList g.members)
include hout

theorem Root.Parallel.current (h : root.Parallel f g s t) :
    Option.Rel Node.SameOutline s.current? t.current? := by
  induction h with
  | file => exact .some (.file hout)
  | library => exact .none
  | dependency => exact .some (.file rfl)
  | enter _ hd ih => exact .some (.decl (hd.outline_eq ih))

theorem Root.Parallel.isAbstract_eq (h : root.Parallel f g s t) (q : QIdent) :
    s.isAbstract q = t.isAbstract q := by
  induction h with
  | file | library | dependency => rfl
  | @enter s t d e hs hd ih =>
    match q with
    | [] | _ :: _ :: _ => rfl
    | [x] =>
      have htps := Decl.tparams_of_outline (hd.outline_eq (hs.current hout))
      rw [Bool.eq_iff_iff, Scope.isAbstract_enter, Scope.isAbstract_enter, ih]
      change x ∈ d.tparams.map (·.name) ∨ _ ↔ x ∈ e.tparams.map (·.name) ∨ _
      rw [htps]
      rfl

theorem Root.Parallel.isContainer_eq (h : root.Parallel f g s t) : s.isContainer = t.isContainer := by
  have hcur := h.current hout
  rw [Scope.isContainer, Scope.isContainer]
  refine hcur.any_eq fun {n m} hnm => ?_
  have hmems := congrArg Option.isSome hnm.members
  simpa [Node.isContainer] using hmems

theorem Root.Parallel.containers (h : root.Parallel f g s t) :
    List.Forall₂ (root.Parallel f g) (s.outwards.filter Scope.isContainer)
      (t.outwards.filter Scope.isContainer) := by
  induction h with
  | file => exact .cons .file .nil
  | library => exact .nil
  | dependency h => exact .cons (.dependency h) .nil
  | @enter s t d e hs hd ih =>
    have hst := Root.Parallel.enter hs hd
    have hcont := hst.isContainer_eq hout
    change List.Forall₂ _ ((s.enter (.decl d) :: s.outwards).filter _) ((t.enter (.decl e) :: t.outwards).filter _)
    rw [List.filter_cons, List.filter_cons, hcont]
    split
    · exact .cons hst ih
    · exact ih

end

omit d e in
theorem Root.Parallel.fileScope? (h : root.Parallel f g s t) :
    Option.Rel (root.Parallel f g) s.fileScope? t.fileScope? := by
  induction h with
  | file => exact .some .file
  | library => exact .none
  | dependency h => exact .some (.dependency h)
  | enter _ _ ih => exact ih

omit d e in
theorem Root.Parallel.root_eq (h : root.Parallel f g s t) : s.root = t.root := by
  induction h with
  | file | library | dependency => rfl
  | enter _ _ ih => exact ih

omit d e in
theorem Root.Parallel.dependencyScopes (h : root.Parallel f g s t) :
    List.Forall₂ (root.Parallel f g) s.dependencyScopes t.dependencyScopes := by
  rw [Scope.dependencyScopes_congr h.root_eq, List.forall₂_same]
  intro s' hs'
  obtain ⟨x, -, hx⟩ := List.mem_filterMap.1 hs'
  obtain ⟨lib, hlib, rfl⟩ := (Scope.dependencyScope?_eq (t := .ofRoot root) h.symm.enters.deps_eq).1 hx
  exact .dependency hlib

end

/-- The declarations were found at the same place. -/
structure Found.Parallel (root : Root) (f g : File) (a b : Found) : Prop where
  scope : root.Parallel f g a.scope b.scope
  decl : root.Alongside a.scope b.scope a.decl b.decl

/-- The declarations stand at the same place in their containers. -/
structure Decl.Parallel (root : Root) (f g : File) (s t : Scope) (d e : Decl) : Prop where
  scope : root.Parallel f g s t
  index : ∃ k : Nat, s.members[k]? = some d ∧ t.members[k]? = some e

/-- The questions are asked at the same place. -/
inductive Question.Parallel (root : Root) (f g : File) :
    (q q' : Question) → (q.Answer → q'.Answer → Prop) → Prop
  | name {p : Picker} {s t : Scope} {q : QIdent} (hp : ∀ {d e : Decl}, d.Kin e → p.pick d = p.pick e)
    (hs : root.Parallel f g s t) :
    Question.Parallel root f g (.name p s q) (.name p t q) (List.Forall₂ (Found.Parallel root f g))
  | imported {s t : Scope} {i j : ImportDecl} (h : Decl.Parallel root f g s t (.imports i) (.imports j)) :
    Question.Parallel root f g (.imported s i) (.imported t j)
      (List.Forall₂ (Binding.Like (Found.Parallel root f g)))
  | exported {s t : Scope} {x y : ExportHead} {a b : Exportee}
    (h : Decl.Parallel root f g s t (.exports x a) (.exports y b)) :
    Question.Parallel root f g (.exported s x a) (.exported t y b)
      (List.Forall₂ (Binding.Like (Found.Parallel root f g)))

variable {q q' : Question} {a b : ScopeKey × Step}

section
variable {root : Root} {f g : File}

variable {s t : Scope}

theorem Decl.Parallel.found {d e : Decl} (h : Decl.Parallel root f g s t d e) :
    Found.Parallel root f g ⟨d, s⟩ ⟨e, t⟩ := by
  obtain ⟨hs, k, hd, he⟩ := h
  exact ⟨hs, .member hd he⟩

theorem Decl.Parallel.exportee {x y : ExportHead} {d e : Decl}
    (h : Decl.Parallel root f g s t (.exports x (.inline d)) (.exports y (.inline e))) :
    Found.Parallel root f g ⟨d, s⟩ ⟨e, t⟩ := by
  obtain ⟨hs, k, hd, he⟩ := h
  exact ⟨hs, .exportee hd he⟩

variable (hout : Decl.outlineList f.members = Decl.outlineList g.members)
include hout

theorem Found.Parallel.kin {a b : Found} (h : Found.Parallel root f g a b) : a.decl.Kin b.decl :=
  Decl.kin_of_outline _ (h.decl.outline_eq (h.scope.current hout))

theorem Root.Parallel.members (h : root.Parallel f g s t) :
    List.Forall₂ (Decl.Parallel root f g s t) s.members t.members := by
  have hlen : s.members.length = t.members.length := by
    simpa using congrArg List.length (Scope.members_outline (h.current hout))
  refine List.forall₂_iff_get.2 ⟨hlen, fun k hk hk' => ⟨h, k, ?_, ?_⟩⟩ <;> simp

/-- The same places in two files with one outline. -/
def Root.outlined (root : Root) : Likeness where
  scope := root.Parallel f g
  found := Found.Parallel root f g
  member := Decl.Parallel root f g
  question := Question.Parallel root f g
  settled h q := by rw [Scope.isSettled, Scope.isSettled, h.isAbstract_eq hout]
  containers h := h.containers hout
  file h := h.fileScope?
  dependencies h := h.dependencyScopes
  library {s t} h x := by
    have hroot : s.libraryModules x = t.libraryModules x := by
      simp only [Scope.libraryModules, Scope.dependencyRoot?, h.root_eq]
    rw [hroot, List.forall₂_same]
    intro a ha
    obtain ⟨lib, hlib, ha⟩ := List.mem_flatMap.1 ha
    obtain ⟨r, hr, rfl⟩ := List.mem_map.1 ha
    rw [Option.mem_toList, h.symm.enters.deps_eq] at hlib
    obtain ⟨lib', hlib', rfl⟩ :=
      (Scope.dependencyRoot?_eq (t := .ofRoot root) h.symm.enters.deps_eq).1 (Option.mem_toList.1 hr)
    cases hlib.symm.trans hlib'
    exact ⟨.library hlib, .module hlib rfl rfl⟩
  members h := h.members hout
  memberKin h := h.found.kin hout
  here _ h := h.found
  exportee _ h := h.exportee
  foundKin h := h.kin hout
  inner h := .enter h.scope h.decl
  imported _ h := .imported h
  exported _ h := .exported h

theorem Question.Parallel.search {A : q.Answer → q'.Answer → Prop}
    (h : Question.Parallel root f g q q' A) : q.search.InStep (Question.Parallel root f g) A q'.search := by
  have hall : ∀ {s t : Scope}, root.Parallel f g s t → ∀ q,
      Question.Parallel root f g (.name .all s q) (.name .all t q) (List.Forall₂ (Found.Parallel root f g)) :=
    fun hs _ => .name (fun _ => rfl) hs
  cases h with
  | name hp hs => exact (root.outlined hout).nameSearch (fun hf => hp (hf.kin hout)) hs _
  | imported h =>
    have hkin := h.found.kin hout
    cases hkin with | imports hsrc himp =>
      exact (root.outlined hout).importSearch hall h.scope hsrc himp
  | exported h =>
    have hkin := h.found.kin hout
    cases hkin with | exports hkind hab =>
      refine (root.outlined hout).exportSearch hall h.scope hkind hab ?_
      rintro d e rfl rfl
      exact h.exportee

end

/-! ## The same answers -/

/-- What is taken up on the trails is at the same place. -/
inductive Step.Parallel (root : Root) (f g : File) : ScopeKey × Step → ScopeKey × Step → Prop
  | name {s t : Scope} (hs : root.Parallel f g s t) (q : QIdent) :
    Step.Parallel root f g (s.key, .name q) (t.key, .name q)
  | node {a b : Found} (h : Found.Parallel root f g a b) :
    Step.Parallel root f g (a.scope.key, .node a.decl.id) (b.scope.key, .node b.decl.id)

section
variable {root : Root} {f g : File}

theorem Found.Parallel.symm {a b : Found} (h : Found.Parallel root f g a b) : Found.Parallel root g f b a :=
  ⟨h.scope.symm, h.decl.symm⟩

theorem Step.Parallel.symm (h : Step.Parallel root f g a b) : Step.Parallel root g f b a := by
  cases h with
  | name hs q => exact .name hs.symm q
  | node h => exact .node h.symm

theorem Step.Parallel.unique (hf : root.Numbered f) {a' b' : ScopeKey × Step}
    (h : Step.Parallel root f g a b) (h' : Step.Parallel root f g a' b') (haa' : a = a') : b = b' := by
  have hscope : ∀ {s t s' t'}, root.Parallel f g s t → root.Parallel f g s' t' → s.key = s'.key →
      s = s' ∧ t = t' := fun hs hs' hkey =>
    have hss' := hf.key_inj hs.enters hs'.enters hkey
    ⟨hss', hs.unique hf hs' hss'⟩
  cases h with
  | name hs q =>
    cases h' with
    | name hs' q' =>
      obtain ⟨hkey, hq⟩ := Prod.mk.inj haa'
      rw [(hscope hs hs' hkey).2, hq]
    | node => cases (Prod.mk.inj haa').2
  | @node a b h =>
    cases h' with
    | name => cases (Prod.mk.inj haa').2
    | @node a' b' h' =>
      obtain ⟨hkey, hid⟩ := Prod.mk.inj haa'
      obtain ⟨hs, ht⟩ := hscope h.scope h'.scope hkey
      have hd := h'.decl
      rw [← hs, ← ht] at hd
      rw [ht, (h.decl.inj hf h.scope.enters hd (Step.node.inj hid)).2]

theorem Step.Parallel.eq_iff (hf : root.Numbered f) (hg : root.Numbered g) {a' b' : ScopeKey × Step}
    (h : Step.Parallel root f g a b) (h' : Step.Parallel root f g a' b') : a = a' ↔ b = b' :=
  ⟨h.unique hf h', h.symm.unique hg h'.symm⟩

theorem Step.Parallel.contains_eq (hf : root.Numbered f) (hg : root.Numbered g) {T T' : Trail}
    (hT : List.Forall₂ (Step.Parallel root f g) T T') (h : Step.Parallel root f g a b) :
    T.contains a = T'.contains b := by
  rw [List.contains_eq_any_beq, List.contains_eq_any_beq]
  refine hT.any_eq fun hx => ?_
  rw [Bool.eq_iff_iff, beq_iff_eq, beq_iff_eq]
  exact h.eq_iff hf hg hx

variable (hout : Decl.outlineList f.members = Decl.outlineList g.members)
include hout

theorem Question.Parallel.pair? {A : q.Answer → q'.Answer → Prop}
    (h : Question.Parallel root f g q q' A) : Option.Rel (Step.Parallel root f g) q.pair? q'.pair? := by
  cases h with
  | name _ hs =>
    simp only [Question.pair?, (root.outlined hout).settled hs]
    split
    · exact .none
    · exact .some (.name hs _)
  | imported h | exported h => exact .some (.node h.found)

omit hout in
theorem Question.Parallel.unanswered {A : q.Answer → q'.Answer → Prop}
    (h : Question.Parallel root f g q q' A) : A q.unanswered q'.unanswered := by
  cases h <;> exact .nil

/-- **Questions at the same place get answers at the same places.** By induction on the number of questions
inside each other. -/
theorem answerOn_parallel (hf : root.Numbered f) (hg : root.Numbered g) : ∀ (n : Nat) {T T' : Trail},
    List.Forall₂ (Step.Parallel root f g) T T' →
    ∀ {q q' : Question} {A : q.Answer → q'.Answer → Prop}, Question.Parallel root f g q q' A →
      Option.Rel A (answerOn n T q) (answerOn n T' q')
  | 0, _, _, _, _, _, _, _ => .none
  | n + 1, T, T', hT, q, q', A, hq => by
    have hpair := hq.pair? hout
    have hcut : q.pair?.any T.contains = q'.pair?.any T'.contains :=
      hpair.any_eq fun h => h.contains_eq hf hg hT
    rw [answerOn, answerOn, hcut]
    split
    · exact .some hq.unanswered
    · have htrail : List.Forall₂ (Step.Parallel root f g) (q.trail T) (q'.trail T') :=
        hpair.toList.append hT
      exact (hq.search hout).run .ofOption (answerOn_parallel hf hg n htrail)

/-- **At the same places of two files with one outline, names denote what is at the same places.** -/
theorem Root.Parallel.denotes (hf : root.Numbered f) (hg : root.Numbered g) {s t : Scope}
    (h : root.Parallel f g s t) (q : QIdent) :
    List.Forall₂ (Found.Parallel root f g) (s.denotes .classes q) (t.denotes .classes q) := by
  have hans := answerOn_parallel hout hf hg (max (s.searchBound 1) (t.searchBound 1)) .nil
    (.name (p := .classes) (q := q) Decl.Kin.isClass_eq h)
  rw [s.answerOn_denotes .classes q (Nat.le_max_left _ _),
    t.answerOn_denotes .classes q (Nat.le_max_right _ _)] at hans
  cases hans with
  | some h => exact h

end

end Ambient
