import Ambient.Proofs.Framed
import Ambient.Proofs.Parallel
import Ambient.Proofs.Stable

/-!
# Forwarding constructors twice

A class that gets constructors has some from then on, and a class has constructors after the run just if it
had some to inherit before. So a second run finds nothing to do, if it looks for constructors where the first
did. It need not: inside an exported declaration, a search may give up an import or export for being at work on
it that it follows from elsewhere. In a tame file this does not happen.
-/

namespace Ambient

/-! ## What became of the parts -/

variable {c c' : ClassDecl} {d' : Decl} {x y : ExportHead} {a : Found} {ds : List Decl} {k : Nat}

namespace Node.Forwards

variable {gets : Scope → ClassDecl → List Member → Prop} {s : Scope} {n n' : Node}

variable {d : Decl}

theorem getElem? (h : n.Forwards gets s n') {ds' : List Decl} (hds : n.members? = some ds)
    (hds' : n'.members? = some ds') (hd : ds[k]? = some d) (hd' : ds'[k]? = some d') :
    (Node.decl d).Forwards gets (s.enter n) (.decl d') := by
  cases h with
  | cls => cases hds
  | container hds₀ hn' _ h =>
    cases hds.symm.trans hds₀
    cases hds'.symm.trans (withMembers?_cases hn').1
    exact h k d d' hd hd'
  | inline => cases hds
  | same _ hmems => cases hds.symm.trans hmems

theorem exportee
    (h : (Node.decl (.exports x (.inline d))).Forwards gets s (.decl (.exports y (.inline d')))) :
    (Node.decl d).Forwards gets (s.enter (.decl (.exports x (.inline d)))) (.decl d') := by
  generalize hn' : Node.decl (.exports y (.inline d')) = n' at h
  cases h with
  | container hds => cases hds
  | inline h =>
    cases hn'
    exact h
  | same _ _ hinl => cases hinl

theorem of_cls (h : (Node.decl (.cls c)).Forwards gets s n') :
    ∃ ctors, gets (s.enter (.decl (.cls c))) c ctors ∧
      n' = .decl (.cls { c with members := ctors ++ c.members }) := by
  cases h with
  | cls h => exact ⟨_, h, rfl⟩
  | container hds => cases hds
  | same hcls => exact absurd rfl (hcls c)

theorem sameOutline (h : n.Forwards gets s n') (hn : n.isPart = false) : n.SameOutline n' := by
  induction h with
  | cls => exact .decl rfl
  | @container s n n' ds ds' hds hn' hlen _ ih =>
    have hout : Decl.outlineList ds = Decl.outlineList ds' := by
      rw [Decl.outlineList_eq_map, Decl.outlineList_eq_map]
      refine List.ext_getElem? fun k => ?_
      rw [List.getElem?_map, List.getElem?_map]
      by_cases hk : k < ds.length
      · have hk' : k < ds'.length := hlen ▸ hk
        have hd := List.getElem?_eq_getElem hk
        have hd' := List.getElem?_eq_getElem hk'
        cases ih k _ _ hd hd' rfl with
        | decl h => rw [hd, hd', Option.map_some, Option.map_some, h]
      · rw [List.getElem?_eq_none (Nat.not_lt.1 hk), List.getElem?_eq_none (hlen ▸ Nat.not_lt.1 hk)]
    cases n with
    | file f =>
      cases hds
      cases hn'
      exact .file hout
    | decl d =>
      cases d <;> cases hds <;> cases hn'
      all_goals exact .decl (by simp only [Decl.outline, hout])
    | _ => cases hds
  | inline _ ih =>
    cases ih rfl with
    | decl h => exact .decl (by simp only [Decl.outline, Exportee.outline, h])
  | @same s n =>
    cases n with
    | file f => exact .file rfl
    | decl d => exact .decl rfl
    | _ => cases hn

end Node.Forwards

theorem Member.isClassCtor_relabelled {m m' : Member} (h : (Node.member m).Relabelled (.member m')) :
    m'.isClassCtor = m.isClassCtor := by
  obtain ⟨k, hk⟩ := h
  cases hk
  cases m with
  | index i =>
    obtain ⟨_, _, _, x, _⟩ := i
    cases x <;> rfl
  | call x | ctor x | function x | property x | mapped x =>
    cases x
    rfl

/-- The node became `m`: its classes got constructors, and it was numbered anew. -/
def Node.Grows (w : Scope) (n m : Node) : Prop :=
  ∃ n', n.Forwards Scope.Completes w n' ∧ n'.Relabelled m

namespace Node.Grows

variable {w : Scope} {n m : Node}

variable {d e : Decl}

theorem getElem? (h : n.Grows w m) {es : List Decl} (hds : n.members? = some ds)
    (hes : m.members? = some es) (hd : ds[k]? = some d) (he : es[k]? = some e) :
    (Node.decl d).Grows (w.enter n) (.decl e) := by
  obtain ⟨n', hfwd, hrel⟩ := h
  obtain ⟨ds', hds', hall⟩ := hrel.members? hes
  obtain ⟨hk, -⟩ := List.getElem?_eq_some_iff.1 he
  have hlen : ds'.length = es.length := by simpa using hall.length_eq
  have hk' : k < ds'.length := hlen ▸ hk
  have hd' := List.getElem?_eq_getElem hk'
  have hnode := (List.forall₂_iff_get.1 hall).2 k (by simpa using hk') (by simpa using hk)
  refine ⟨_, hfwd.getElem? hds hds' hd hd', ?_⟩
  obtain ⟨hk, rfl⟩ := List.getElem?_eq_some_iff.1 he
  simpa using hnode

theorem exportee (h : (Node.decl (.exports x (.inline d))).Grows w (.decl (.exports y (.inline e)))) :
    (Node.decl d).Grows (w.enter (.decl (.exports x (.inline d)))) (.decl e) := by
  obtain ⟨n', hfwd, hrel⟩ := h
  have hout := hfwd.sameOutline rfl
  cases hout with | @decl _ d' hout =>
  cases Decl.kin_of_outline _ hout with | exports _ hkin =>
  cases hkin with
  | inline =>
    cases hrel.children with
    | cons hd _ => exact ⟨_, hfwd.exportee, hd⟩

theorem ctors_iff (h : (Node.decl (.cls c)).Grows w (.decl (.cls c'))) :
    c'.ctors ≠ [] ↔ c.ctors ≠ [] ∨ (w.enter (.decl (.cls c))).Inherits c := by
  obtain ⟨n', hfwd, hrel⟩ := h
  obtain ⟨ctors, h, rfl⟩ := hfwd.of_cls
  obtain ⟨ms, hms, hall⟩ := hrel.classMembers? rfl
  cases hms
  have hsame : c'.members.any Member.isClassCtor = (ctors ++ c.members).any Member.isClassCtor := by
    have hmap := hall.map_eq (g := Member.isClassCtor) Member.isClassCtor_relabelled
    have hany := congrArg (List.any · fun b => b) hmap
    simp only [List.any_map] at hany
    exact hany
  have hctors : ctors.any Member.isClassCtor = true ↔ ctors ≠ [] := by
    cases ctors with
    | nil => simp
    | cons m ms => simp [h.all m (.head _)]
  rw [← c'.any_isClassCtor, hsame, List.any_append, Bool.or_eq_true, hctors, h.iff, c.any_isClassCtor]
  tauto

end Node.Grows

/-! ## The same places before and after -/

theorem Node.eq_exports {n : Node} (hmems : n.members? = none) {d : Decl} (hd : .decl d ∈ n.children) :
    ∃ x, n = .decl (.exports x (.inline d)) := by
  cases hinl : n.exportee? with
  | none => cases isPart_of_exportee? hmems hinl hd
  | some e =>
    unfold Node.exportee? at hinl
    split at hinl
    · cases List.mem_singleton.1 hd
      exact ⟨_, rfl⟩
    · cases hinl

/-- The scopes are inside of a node and what became of it. The node was looked at from a scope that may have
come through exports to it. -/
def Root.Grows (root : Root) (f : File) (s t : Scope) : Prop :=
  ∃ (w : Scope) (n m : Node), root.Framed f (w.enter n) s ∧ t.current? = some m ∧ n.Grows w m

section
variable {root : Root} {f g : File} {s t : Scope} {d e : Decl}

theorem Root.Grows.members (h : root.Grows f s t) (hd : s.members[k]? = some d)
    (he : t.members[k]? = some e) :
    ∃ w : Scope, root.Framed f w s ∧ d ∈ w.members ∧ (Node.decl d).Grows w (.decl e) := by
  obtain ⟨w, n, m, hfr, hm, hgrows⟩ := h
  have hmems := hfr.members_eq
  have hmem : d ∈ (w.enter n).members := hmems ▸ List.mem_of_getElem? hd
  obtain ⟨n', ds, hn, hds, -⟩ := Scope.mem_members.1 hmem
  obtain ⟨m', es, hm', hes, -⟩ := Scope.mem_members.1 (List.mem_of_getElem? he)
  obtain rfl : n = n' := Option.some.inj hn
  cases hm.symm.trans hm'
  rw [← hmems, Scope.members, hn, Option.bind_some, hds] at hd
  rw [Scope.members, hm, Option.bind_some, hes] at he
  exact ⟨_, hfr, hmem, hgrows.getElem? hds hes hd he⟩

theorem Root.Grows.enter (h : root.Grows f s t) (hd : root.Alongside s t d e) :
    root.Grows f (s.enter (.decl d)) (t.enter (.decl e)) := by
  cases hd with
  | member hd he =>
    obtain ⟨w, hfr, hmem, hgrows⟩ := h.members hd he
    exact ⟨_, _, _, .member hfr hmem, rfl, hgrows⟩
  | exportee hd he =>
    obtain ⟨w, hfr, hmem, hgrows⟩ := h.members hd he
    exact ⟨_, _, _, .framed hfr hmem, rfl, hgrows.exportee⟩
  | inside hd he =>
    obtain ⟨w, n, m, hfr, hm, hgrows⟩ := h
    cases hm.symm.trans he
    have hn : n = .decl (.exports _ (.inline d)) := Option.some.inj (hfr.current_eq.trans hd)
    subst hn
    exact ⟨_, _, _, .inside hfr rfl, rfl, hgrows.exportee⟩
  | module _ hs =>
    obtain ⟨w, n, m, hfr, -⟩ := h
    have hn := hfr.current_eq
    rw [hs] at hn
    cases hn

theorem Root.Alongside.eq_of_current (h : root.Alongside s t d e) (hst : s.current? = t.current?) : d = e := by
  have hmems : s.members = t.members := by rw [Scope.members, Scope.members, hst]
  cases h with
  | member hd he =>
    rw [hmems] at hd
    exact Option.some.inj (hd.symm.trans he)
  | exportee hd he =>
    rw [hmems] at hd
    cases hd.symm.trans he
    rfl
  | inside hd he =>
    cases (hd.symm.trans hst).trans he
    rfl
  | module => rfl

section
variable (hfile : (Node.file f).Grows (.ofRoot root) (.file g))
include hfile

/-- **At the same place there is what became of the node**, or the node itself in a library that the file
depends on. -/
theorem Root.Parallel.grows (h : root.Parallel f g s t) : root.Grows f s t ∨ s.current? = t.current? := by
  induction h with
  | file => exact .inl ⟨_, _, _, .file, rfl, hfile⟩
  | library | dependency => exact .inr rfl
  | enter _ hd ih =>
    rcases ih with ih | ih
    · exact .inl (ih.enter hd)
    · exact .inr (congrArg (some <| Node.decl ·) (hd.eq_of_current ih))

theorem Root.Inside.grows (hout : Decl.outlineList f.members = Decl.outlineList g.members)
    (h : root.Inside g t) {m : Node} (hm : t.current? = some m) (hpart : m.isPart = false) :
    ∃ s, root.Parallel f g s t ∧ root.Grows f s t := by
  induction h generalizing m with
  | file => exact ⟨_, .file, _, _, _, .file, rfl, hfile⟩
  | @child t n m' ht hn hmem ih =>
    cases hm
    obtain ⟨hnpart, e, rfl⟩ := Node.decl_of_mem_children hmem hpart
    obtain ⟨s, hst, hgrows⟩ := ih hn hnpart
    obtain ⟨d, hd⟩ : ∃ d, root.Alongside s t d e := by
      cases hes : n.members? with
      | some es =>
        have he : e ∈ t.members := by
          rw [Node.children_of_members? hes] at hmem
          simpa [Scope.members, hn, hes] using hmem
        obtain ⟨d, -, -, k, hd, he⟩ := exists_of_forall₂ (hst.members hout).flip he
        exact ⟨d, .member hd he⟩
      | none =>
        obtain ⟨y, rfl⟩ := Node.eq_exports hes hmem
        have hcur := hst.current hout
        rw [hn] at hcur
        generalize hs : s.current? = n at hcur
        cases hcur with | some hcur =>
        cases hcur with | decl hcur =>
        cases Decl.kin_of_outline _ hcur with | exports _ hkin =>
        cases hkin with
        | inline => exact ⟨_, .inside hs hn⟩
    exact ⟨_, .enter hst hd, hgrows.enter hd⟩

end

/-! ## Nothing is left to get -/

/-- No class of the file without constructors inherits any. -/
def Root.Completed (root : Root) (f : File) : Prop :=
  ∀ (s : Scope) (c : ClassDecl), root.At f s (.decl (.cls c)) → c.ctors = [] → ¬ s.Inherits c

theorem Found.hasCtors_of_inherits (hc : a.decl = .cls c) (h : a.inner.Inherits c) : a.HasCtors := by
  obtain ⟨i, q, targs, hpar, b, hb, hctors⟩ := h
  exact .inherited hc hpar hb hctors

section
variable (hf : f.isTame = true) (hnum : root.Numbered f) (hnum' : root.Numbered g)
  (hout : Decl.outlineList f.members = Decl.outlineList g.members)
  (hfile : (Node.file f).Grows (.ofRoot root) (.file g))
include hnum hnum' hout

theorem Root.Parallel.parents (h : root.Parallel f g s t) (hc : s.current? = some (.decl (.cls c)))
    (hc' : t.current? = some (.decl (.cls c'))) : ParentsIn (flip (Found.Parallel root f g)) t c' s c := by
  intro i q targs hpar
  have hcur := h.current hout
  rw [hc, hc'] at hcur
  cases hcur with | some hcur =>
  cases hcur with | decl hcur =>
  exact ⟨Decl.parent_of_outline hcur.symm hpar, (h.denotes hout hnum hnum' q).flip⟩

include hf hfile

/-- **A class that has constructors now had some, or inherited some, before.** -/
theorem Found.Parallel.hasCtors {b : Found} (h : Found.Parallel root f g a b) (hb : b.HasCtors) :
    a.HasCtors := by
  have hcls : ∀ {a b c'}, Found.Parallel root f g a b → b.decl = .cls c' → ∃ c, a.decl = .cls c := by
    intro a b c' hab hc'
    have hkin := hab.kin hout
    rw [hc'] at hkin
    generalize a.decl = d at hkin
    cases hkin with
    | cls => exact ⟨_, rfl⟩
  refine hb.transfer (R := flip (Found.Parallel root f g)) (fun {b a c'} hab hc' hown => ?_)
    (fun {b a c'} hab hc' => ?_) h
  · obtain ⟨c, hc⟩ := hcls hab hc'
    have hinner : root.Parallel f g a.inner b.inner := .enter hab.scope hab.decl
    rcases hinner.grows hfile with ⟨w, n, m, hfr, hm, hgrows⟩ | hsame
    · obtain rfl : n = .decl (.cls c) := hc ▸ Option.some.inj hfr.current_eq
      obtain rfl : m = .decl (.cls c') := hc' ▸ (Option.some.inj hm).symm
      rcases hgrows.ctors_iff.1 hown with hctors | hinhs
      · exact .own hc hctors
      · exact Found.hasCtors_of_inherits hc ((hfr.inherits_iff hf hnum rfl c).1 hinhs)
    · have hdecl : a.decl = b.decl := Node.decl.inj (Option.some.inj hsame)
      exact .own (hdecl.trans hc') hown
  · obtain ⟨c, hc⟩ := hcls hab hc'
    have hinner : root.Parallel f g a.inner b.inner := .enter hab.scope hab.decl
    exact ⟨c, hc, hinner.parents hnum hnum' hout (congrArg (some <| Node.decl ·) hc)
      (congrArg (some <| Node.decl ·) hc')⟩

/-- **One run completes the classes of a tame file.** -/
theorem Root.completed_of_isTame : root.Completed g := by
  rintro t c' ⟨ht, hc'⟩ hown hinhs
  obtain ⟨s, hst, w, n, m, hfr, hm, hgrows⟩ := ht.grows hfile hout hc' rfl
  cases hc'.symm.trans hm
  obtain ⟨c, rfl⟩ : ∃ c, n = .decl (.cls c) := by
    have hcur := hst.current hout
    rw [← hfr.current_eq, hc'] at hcur
    cases hcur with | some hcur =>
    cases hcur with | decl hcur =>
    cases Decl.kin_of_outline _ hcur with
    | cls => exact ⟨_, rfl⟩
  have hinh : s.Inherits c := hinhs.transfer (fun hab => hab.hasCtors hf hnum hnum' hout hfile)
    (hst.parents hnum hnum' hout hfr.current_eq.symm hc')
  exact hgrows.ctors_iff.2 (.inr ((hfr.inherits_iff hf hnum rfl c).2 hinh)) hown

end

/-! ## Two runs -/

/-- In a file that comes back as it is, no node became another one. -/
theorem Root.Inside.forwards {gets : Scope → ClassDecl → List Member → Prop}
    (hfile : (Node.file f).Forwards gets (.ofRoot root) (.file f)) (hs : root.Inside f s) {n : Node}
    (hn : s.current? = some n) (hpart : n.isPart = false) : ∃ s₀, s = s₀.enter n ∧ n.Forwards gets s₀ n := by
  induction hs generalizing n with
  | file =>
    cases hn
    exact ⟨_, rfl, hfile⟩
  | @child s n₀ m _ hn₀ hm ih =>
    cases hn
    obtain ⟨hpart₀, d, rfl⟩ := Node.decl_of_mem_children hm hpart
    obtain ⟨s₀, rfl, hfwd⟩ := ih hn₀ hpart₀
    refine ⟨_, rfl, ?_⟩
    cases hds : n₀.members? with
    | some ds =>
      rw [Node.children_of_members? hds] at hm
      obtain ⟨k, hk⟩ := List.getElem?_of_mem (List.mem_map_of_injective (fun _ _ => Node.decl.inj) |>.1 hm)
      exact hfwd.getElem? hds hds hk hk
    | none =>
      obtain ⟨x, rfl⟩ := Node.eq_exports hds hm
      exact hfwd.exportee

/-- **A file comes back as it is just if its classes are complete.** -/
theorem forwardCtors_keep_iff (hnum : root.Numbered f) {σ σ' : Session}
    (hσ : σ.Faithful (root.searches f).realm) {e : Edited File}
    (h : (forwardCtors (.ofRoot root) f).run σ = .ok (e, σ')) : e = .keep f ↔ root.Completed f := by
  constructor
  · rintro rfl s c ⟨hs, hc⟩ hown hinhs
    obtain ⟨e, σ₁, hrun, -, hfwd⟩ := forwardCtors_completes hnum (w := ()) σ hσ
    cases h.symm.trans hrun
    obtain ⟨s₀, rfl, hcls⟩ := hs.forwards hfwd hc rfl
    obtain ⟨ctors, hcpl, heq⟩ := hcls.of_cls
    have hmems : c.members = ctors ++ c.members := congrArg ClassDecl.members (Decl.cls.inj (Node.decl.inj heq))
    exact hcpl.iff.2 ⟨hown, hinhs⟩ (List.self_eq_append_left.1 hmems)
  · intro hcpd
    have hctors : ∀ {s c i q targs ms}, root.At f s (.decl (.cls c)) → c.members.any Member.isClassCtor = false →
        c.parent = some (.ref i q targs) → (root.searches f).realm.MayAnswer (.ctors s q targs) ms → ms = [] := by
      intro s c i q targs ms hat hown hpar hms
      have hnone : c.ctors = [] := by
        by_contra hne
        cases hown.symm.trans (c.any_isClassCtor.2 hne)
      have hcpl := (Realm.Obtains.inherited hnone hpar hms).completes hnum hat.inside (by
        rw [Scope.isContainer, hat.current]
        rfl)
      by_contra hne
      exact hcpd s c hat hnone (hcpl.iff.1 hne).2
    obtain ⟨e', σ₁, hrun, -, rfl⟩ := forwardCtors_keeps hctors (w := ()) σ hσ
    cases h.symm.trans hrun
    rfl

end

mutual

theorem Decl.isTame_outline (exported : Bool) (d : Decl) : d.outline.isTame exported = d.isTame exported := by
  cases d with
  | space h ds | module h ds | augmentation h ds | global h ds => exact Decl.areTame_outline exported ds
  | exports x a =>
    cases a with
    | inline d => exact Decl.isTame_outline true d
    | _ => rfl
  | _ => rfl

theorem Decl.areTame_outline (exported : Bool) (ds : List Decl) :
    Decl.areTame exported (Decl.outlineList ds) = Decl.areTame exported ds := by
  cases ds with
  | nil => rfl
  | cons d ds =>
    simp only [Decl.outlineList, Decl.areTame, Decl.isTame_outline exported d, Decl.areTame_outline exported ds]

end

theorem File.isTame_number (f : File) (k : NodeId) : (f.number k).1.isTame = f.isTame := by
  rw [File.isTame, File.isTame, ← Decl.areTame_outline, File.outline_number, Decl.areTame_outline]

/-- **One run completes the classes of a tame file, and a second run has nothing to do just if it did.** A class
without constructors that inherits some gets a non-empty list of constructors in front of its members, and all
other classes stay as they are. -/
theorem forwardCtors_twice (lib : Library) (pedantic remember remember' : Bool) :
    ∃ e e', Pass.forwardCtors.runAnew (lib.root pedantic) remember lib.file = .ok e ∧
      Pass.forwardCtors.runAnew (lib.root pedantic) remember' e.value = .ok e' ∧
      (Node.file lib.numbered).Forwards Scope.Completes (.ofRoot (lib.root pedantic)) (.file e.value) ∧
      (e' = .keep (lib.withFile e.value).numbered ↔
        (lib.root pedantic).Completed (lib.withFile e.value).numbered) ∧
      (lib.file.isTame = true → (lib.root pedantic).Completed (lib.withFile e.value).numbered) := by
  have hrun : ∀ (lib : Library) (remember : Bool), ∃ e σ',
      Pass.forwardCtors.runAnew (lib.root pedantic) remember lib.file = .ok e ∧
      (forwardCtors (.ofRoot (lib.root pedantic)) lib.numbered).run
        { memo := if remember then some {} else none } = .ok (e, σ') ∧
      (Node.file lib.numbered).Forwards Scope.Completes (.ofRoot (lib.root pedantic)) (.file e.value) := by
    intro lib remember
    have hnum := lib.numbered_root pedantic
    obtain ⟨e, σ', hrun, -, hforwards⟩ :=
      forwardCtors_completes hnum (w := ()) _ (Session.faithful_fresh hnum.searches.apart remember)
    have hanew : Pass.forwardCtors.runAnew (lib.root pedantic) remember lib.file =
        (forwardCtors (.ofRoot (lib.root pedantic)) lib.numbered).run
          { memo := if remember then some {} else none } >>= fun r => pure r.1 := rfl
    exact ⟨e, σ', by rw [hanew, hrun]; rfl, hrun, hforwards⟩
  obtain ⟨e, σ, hanew, -, hforwards⟩ := hrun lib remember
  obtain ⟨e', σ', hanew', hrun', -⟩ := hrun (lib.withFile e.value) remember'
  have hnum := lib.numbered_root pedantic
  have hnum' := (lib.withFile e.value).numbered_root pedantic
  refine ⟨e, e', hanew, hanew', hforwards, ?_, fun htame => ?_⟩
  · exact forwardCtors_keep_iff hnum' (Session.faithful_fresh hnum'.searches.apart remember') hrun'
  · have hout : Decl.outlineList lib.numbered.members =
        Decl.outlineList (lib.withFile e.value).numbered.members := by
      cases hforwards.sameOutline rfl with
      | file h => exact h.trans (e.value.outline_number _).symm
    have hnumbered : lib.numbered.isTame = true := (lib.file.isTame_number _).trans htame
    exact Root.completed_of_isTame hnumbered hnum hnum' hout ⟨_, hforwards, e.value.relabelled _⟩

/-- `class Y { constructor(v: number) }` in a namespace of a library that others depend on. -/
def declaringInSpace : File :=
  File.ofMembers "d" [.ofSpace "N" [.ofClass "Y" none
    [.ofSignature "constructor" (.ofParams [.ofType "v" .number] none)]]]

/-- A namespace that is exported where it stands. `class A extends X {}` in it gets its parent by an import of
what the namespace itself exports, under another name, and `class B extends N.A {}` stands outside. -/
def reexporting : Library where
  name := "lib"
  deps := [("d", declaringInSpace)]
  file := File.ofMembers "lib"
    [.ofExportInline (.ofSpace "N"
      [.ofImport [.name "X"] (.inner ["N", "Y"]), .ofExportNames [(["X"], some "Y")] none,
       .ofClass "A" (some (.reference ["X"] [])) []]),
     .ofClass "X" none [],
     .ofClass "B" (some (.reference ["N", "A"] [])) []]

/-- Two classes that extend each other, and another one of the second name, which declares a constructor. -/
def cyclic : Library where
  name := "lib"
  deps := []
  file := File.ofMembers "lib"
    [.ofClass "A" (some (.reference ["B"] [])) [],
     .ofClass "B" (some (.reference ["A"] [])) [],
     .ofClass "B" none [.ofSignature "constructor" (.ofParams [.ofType "v" .number] none)]]

/-- Does the first run change the file, and does the second? -/
def changesTwice (lib : Library) : Option (Bool × Bool) :=
  (Pass.forwardCtors.runAnew (lib.root false) false lib.file).toOption.bind fun e =>
    (Pass.forwardCtors.runAnew (lib.root false) false e.value).toOption.map fun e' => (e.changed, e'.changed)

/-- From inside the exported namespace the import is followed to `class Y`, so `class A` gets its constructor.
From outside it leads back to itself, so `class B` only inherits once `class A` has one of its own. -/
theorem forwardCtors_twice_reexporting :
    (reexporting.file.isTame = false ∧ ∃ e e',
      Pass.forwardCtors.runAnew (reexporting.root false) false reexporting.file = .ok e ∧
      Pass.forwardCtors.runAnew (reexporting.root false) false e.value = .ok e' ∧ e'.changed = true ∧
      ¬ (reexporting.root false).Completed (reexporting.withFile e.value).numbered) ∧
    cyclic.file.isTame = true ∧ ∃ e e',
      Pass.forwardCtors.runAnew (cyclic.root false) false cyclic.file = .ok e ∧ e.changed = true ∧
      Pass.forwardCtors.runAnew (cyclic.root false) false e.value = .ok e' ∧
      e' = .keep (cyclic.withFile e.value).numbered := by
  have hruns : changesTwice reexporting = some (true, true) ∧ changesTwice cyclic = some (true, false) := by
    decide +kernel
  refine ⟨⟨by decide, ?_⟩, by decide, ?_⟩
  · obtain ⟨e, e', he, he', -, hiff, -⟩ := forwardCtors_twice reexporting false false false
    have hchanged : (e.changed, e'.changed) = (true, true) := by
      simpa [changesTwice, he, he', Except.toOption] using hruns.1
    obtain ⟨-, hchanged⟩ := Prod.mk.inj hchanged
    refine ⟨e, e', he, he', hchanged, fun hcompleted => ?_⟩
    cases hchanged.symm.trans (congrArg Edited.changed (hiff.2 hcompleted))
  · obtain ⟨e, e', he, he', -, hiff, htame⟩ := forwardCtors_twice cyclic false false false
    have hchanged : (e.changed, e'.changed) = (true, false) := by
      simpa [changesTwice, he, he', Except.toOption] using hruns.2
    exact ⟨e, e', he, (Prod.mk.inj hchanged).1, he', hiff.2 (htame (by decide))⟩

end Ambient
