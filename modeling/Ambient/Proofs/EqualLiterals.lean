import Ambient.Proofs.Exact
import Ambient.Proofs.Twin.Equal

/-!
# Equal literals share an interface

In a file that is flat, no container is in the file and nothing in it introduces a type parameter or
mapped-type key (`File.Flat`). There a name means the same wherever a literal stands (`File.Flat.meaning_eq`).
So an interface that waits can be used again at every literal that is equal to the one it was made of, and
a new one is made only if no equal one waits (`yields_placeLiteral_alone`).

* `recordAnew_shared`: no two interfaces that a run adds have equal members.
* `extractInterfaces_shares`: equal literals are replaced by the same reference.
-/

namespace Ambient

/-! ## Flat files -/

/-- No node in it is a container, and none introduces a type parameter or mapped-type key. -/
inductive Node.Flat : Node → Prop
  | mk {n : Node} (container : n.isContainer = false) (tparams : n.tparams = []) (key : n.typeKey? = none)
    (inside : ∀ m ∈ n.children, Flat m) : Flat n

/-- The only container is the file itself, and nothing in it introduces a type parameter or mapped-type
key. -/
def File.Flat (f : File) : Prop := ∀ d ∈ f.members, (Node.decl d).Flat

variable {n n' : Node} {pending : PendingByScope} {log : Record} {c : Scope} {t : Ty}

theorem Node.Flat.child {m : Node} (h : n.Flat) (hm : m ∈ n.children) : m.Flat := by
  cases h with
  | mk _ _ _ inside => exact inside m hm

theorem Node.Flat.of_allTo {depth : Nat}
    (h : n.allTo (fun n => !n.isContainer && n.tparams.isEmpty && n.typeKey?.isNone) depth = true) :
    n.Flat := by
  induction depth generalizing n with
  | zero => cases h
  | succ depth ih =>
    simp only [Node.allTo, Bool.and_eq_true, Bool.not_eq_true', List.isEmpty_iff, Option.isNone_iff_eq_none,
      List.all_eq_true] at h
    obtain ⟨⟨⟨hcont, htps⟩, hkey⟩, hin⟩ := h
    exact .mk hcont htps hkey fun m hm => ih (hin m hm)

theorem TypeParam.renumberList_nil {ps : List TypeParam} (k : NodeId) (h : ps = []) :
    ((TypeParam.renumberList nextId ps).run k).1 = [] := by
  subst h
  rfl

theorem Signature.tparams_renumber {s : Signature} (k : NodeId) (h : s.tparams = []) :
    ((s.renumber nextId).run k).1.tparams = [] := by
  obtain ⟨_, ps, _, _⟩ := s
  exact TypeParam.renumberList_nil _ h

theorem Member.tparams_renumber {m : Member} (k : NodeId) (h : (Node.member m).tparams = []) :
    (Node.member ((m.renumber nextId).run k).1).tparams = [] := by
  cases m with
  | function m => cases m; exact Signature.tparams_renumber _ h
  | call c | ctor c => cases c; exact Signature.tparams_renumber _ h
  | index i =>
    obtain ⟨_, _, _, x, _⟩ := i
    cases x <;> rfl
  | property p => cases p; rfl
  | mapped m => cases m; rfl

theorem Node.tparams_relabelled (hn : n.Relabelled n') (h : n.tparams = []) : n'.tparams = [] := by
  obtain ⟨k, rfl⟩ := hn
  cases n with
  | decl d =>
    cases d with
    | cls c | iface i | typeAlias a => exact TypeParam.renumberList_nil _ h
    | function f => exact Signature.tparams_renumber _ h
    | _ => rfl
  | sig s => exact Signature.tparams_renumber _ h
  | member m => exact Member.tparams_renumber _ h
  | ty t =>
    cases t with
    | function s => exact Signature.tparams_renumber _ h
    | constructor i a s => exact Signature.tparams_renumber _ h
    | _ => rfl
  | _ => rfl

theorem Node.typeKey?_relabelled (hn : n.Relabelled n') (h : n.typeKey? = none) :
    n'.typeKey? = none := by
  obtain ⟨k, rfl⟩ := hn
  cases n with
  | member m =>
    cases m with
    | mapped m => cases h
    | index i =>
      obtain ⟨_, _, _, x, _⟩ := i
      cases x <;> rfl
    | call x | ctor x | function x | property x =>
      cases x
      rfl
  | _ => rfl

theorem Node.Flat.relabelled (h : n.Flat) (hn : n.Relabelled n') : n'.Flat := by
  induction h generalizing n' with
  | mk container tparams key _ ih =>
    refine .mk ?_ (Node.tparams_relabelled hn tparams) (Node.typeKey?_relabelled hn key) fun m' hm' => ?_
    · refine Bool.eq_false_iff.2 fun hc => ?_
      obtain ⟨ds', hds'⟩ := Option.isSome_iff_exists.1 hc
      obtain ⟨ds, hds, -⟩ := hn.members? hds'
      rw [Node.isContainer, hds] at container
      cases container
    · obtain ⟨i, hi, rfl⟩ := List.getElem_of_mem hm'
      have hlen := hn.children.length_eq
      exact ih _ (List.getElem_mem (hlen ▸ hi)) (hn.children.get (hlen ▸ hi) hi)

theorem File.Flat.number {f : File} (h : f.Flat) (k : NodeId) : (f.number k).1.Flat := by
  intro d' hd'
  have hall : RelabelledAll (f.members.map .decl) ((f.number k).1.members.map .decl) :=
    Node.Relabelled.children (n := .file f) ⟨k, rfl⟩
  obtain ⟨i, hi, rfl⟩ := List.getElem_of_mem hd'
  have hi' : i < f.members.length := by
    have hlen := hall.length_eq
    simp only [List.length_map] at hlen
    omega
  have hd := hall.get (i := i) (by simpa using hi') (by simpa using hi)
  simp only [List.get_eq_getElem, List.getElem_map] at hd
  exact (h _ (List.getElem_mem hi')).relabelled hd

/-! ## The scopes of a flat file -/

/-- The scope directly inside the file. -/
abbrev Root.top (root : Root) (f : File) : Scope := (Scope.ofRoot root).enter (.file f)

section
variable {root : Root} {f : File} {s : Scope}

/-- In a flat file the file is the one container around, and nothing is abstract. -/
structure Scope.Plain (root : Root) (f : File) (s : Scope) : Prop where
  root_eq : s.root = root
  containers : s.containers = [root.top f]
  tparams : s.tparams = []
  tkeys : s.tkeys = []
  current : s = root.top f ∨ ∃ n, s.current? = some n ∧ n.Flat

theorem File.Flat.plain (hf : f.Flat) (hs : root.Inside f s) : s.Plain root f := by
  induction hs with
  | file => exact ⟨rfl, rfl, rfl, rfl, .inl rfl⟩
  | @child s n m hs hn hm ih =>
    have hflat : m.Flat := by
      rcases ih.current with rfl | ⟨n', hn', hflat⟩
      · cases hn
        obtain ⟨d, hd, rfl⟩ := List.mem_map.1 hm
        exact hf d hd
      · cases hn.symm.trans hn'
        exact hflat.child hm
    have ⟨hcont, htps, hkey, _⟩ := hflat
    refine ⟨ih.root_eq, ?_, ?_, ?_, .inr ⟨m, rfl, hflat⟩⟩
    · have hout : (s.enter m).outwards = s.enter m :: s.outwards := rfl
      have hno : (s.enter m).isContainer = false := hcont
      rw [Scope.containers, hout, List.filter_cons_of_neg (by simp [hno]), ← Scope.containers,
        ih.containers]
    · have hps : (s.enter m).tparams = m.tparams.foldl (fun ts p => (p.name, p) :: ts) s.tparams := rfl
      rw [hps, htps, ih.tparams]
      rfl
    · have hkeys : (s.enter m).tkeys = m.typeKey?.toList ++ s.tkeys := rfl
      rw [hkeys, hkey, ih.tkeys]
      rfl

theorem Scope.Plain.isAbstract (h : s.Plain root f) (q : QIdent) : s.isAbstract q = false := by
  unfold Scope.isAbstract
  split
  · rw [Scope.tparam?, h.tparams, h.tkeys]
    rfl
  · rfl

theorem File.Flat.paramsOf (hf : f.Flat) (hs : root.Inside f s) (t : Ty) : s.paramsOf t = [] := by
  refine List.eq_nil_iff_forall_not_mem.2 fun p hp => ?_
  obtain ⟨x, -, hx⟩ := hs.enters.entered.mem_paramsOf.1 hp
  rw [Scope.tparam?, (hf.plain hs).tparams] at hx
  cases hx

/-- **A name means the same wherever a type stands in a flat file.** -/
theorem File.Flat.meaning_eq (hf : f.Flat) (hnum : root.Numbered f) {s' : Scope} {t' : Ty}
    (hs : root.Inside f (s.enter (.ty t))) (hs' : root.Inside f (s'.enter (.ty t'))) (q : QIdent) :
    (s.enter (.ty t)).meaning q = (s'.enter (.ty t')).meaning q := by
  have h := hf.plain hs
  have h' := hf.plain hs'
  refine meaning_congr hnum.territory hs.enters hs'.enters (h.root_eq.trans h'.root_eq.symm)
    (h.containers.trans h'.containers.symm) (h.isAbstract q) (h'.isAbstract q) ?_ ?_
  · exact List.forall_mem_nil _
  · exact List.forall_mem_nil _

end

/-! ## What waits -/

def InterfaceDecl.Unlike (i j : InterfaceDecl) : Prop := (i.members == j.members) = false

/-- The interfaces that wait have different members and no type parameters, and their names mean nothing
where a type stands. -/
structure PendingByScope.Shared (root : Root) (f : File) (pending : PendingByScope) : Prop where
  different : ∀ c, (pending.waiting c).Pairwise InterfaceDecl.Unlike
  tparams : ∀ {c i}, i ∈ pending.waiting c → i.tparams = []
  unbound : ∀ {c i}, i ∈ pending.waiting c → ∀ {s : Scope} {t : Ty}, root.Inside f (s.enter (.ty t)) →
    (s.enter (.ty t)).meaning [i.name] = []

theorem PendingByScope.Shared.add {root : Root} {f : File} (h : pending.Shared root f)
    {i : InterfaceDecl} (htps : i.tparams = [])
    (hnew : (pending.waiting c).findEqual? i.tparams i.members = none)
    (hunb : ∀ {s : Scope} {t : Ty}, root.Inside f (s.enter (.ty t)) →
      (s.enter (.ty t)).meaning [i.name] = []) : (pending.add c i).Shared root f := by
  have hmem : ∀ {d j}, j ∈ (pending.add c i).waiting d → j ∈ pending.waiting d ∨ j = i := by
    intro d j hj
    by_cases hd : d.key = c.key
    · rw [waiting_add_self hd] at hj
      simpa using hj
    · rw [waiting_add_of_ne hd] at hj
      exact .inl hj
  refine ⟨fun d => ?_, fun hj => ?_, fun hj => ?_⟩
  · by_cases hd : d.key = c.key
    · rw [waiting_add_self hd]
      refine List.pairwise_append.2 ⟨h.different d, List.pairwise_singleton _ _, fun j hj k hk => ?_⟩
      obtain rfl := List.mem_singleton.1 hk
      have hwait : pending.waiting d = pending.waiting c := by rw [waiting, waiting, hd]
      rw [hwait] at hj
      have hne := List.find?_eq_none.1 hnew j hj
      rw [h.tparams hj, htps, BEq.rfl, Bool.true_and] at hne
      exact Bool.eq_false_iff.2 hne
    · rw [waiting_add_of_ne hd]
      exact h.different d
  · rcases hmem hj with hj | rfl
    · exact h.tparams hj
    · exact htps
  · rcases hmem hj with hj | rfl
    · exact h.unbound hj
    · exact hunb

theorem PendingByScope.Shared.without {root : Root} {f : File} (h : pending.Shared root f) (c : Scope) :
    (pending.without c).Shared root f := by
  have hwait : ∀ d, (pending.without c).waiting d = pending.waiting d ∨
      (pending.without c).waiting d = [] := by
    intro d
    by_cases hd : d.key = c.key
    · exact .inr (waiting_without_self hd)
    · exact .inl (waiting_without hd)
  have hmem : ∀ {d j}, j ∈ (pending.without c).waiting d → j ∈ pending.waiting d := by
    intro d j hj
    rcases hwait d with heq | heq
    · exact heq ▸ hj
    · rw [heq] at hj
      cases hj
  refine ⟨fun d => ?_, fun hj => h.tparams (hmem hj), fun hj => h.unbound (hmem hj)⟩
  rcases hwait d with heq | heq
  · exact heq ▸ h.different d
  · rw [heq]
    exact .nil

section
variable {T : Territory} (hT : T.Numbered) (hall : T.AllNames)
include hT hall

/-- An interface that says the same is used again, if the names of those that wait mean nothing. -/
theorem yields_reusable_unbound {s : Scope} (hs : T.scope s)
    (hunb : ∀ i ∈ pending.waiting c, s.meaning [i.name] = []) (tparams : List TypeParam)
    (ms : List Member) : Yields T.realm (reusable? pending s [] c tparams ms)
      (· = (pending.waiting c).findEqual? tparams ms) := by
  unfold reusable?
  split
  · rename_i hnone
    exact .pure hnone.symm
  · rename_i i hi
    have hvis : Yields T.realm (isVisible s i.name) (· = false) := by
      refine (yields_lookup hT hall hs [i.name]).bind fun fs hfs => .pure ?_
      rw [hfs, hunb i (List.mem_of_find?_eq_some hi)]
      rfl
    refine hvis.bind fun b hb => ?_
    subst hb
    exact .pure hi.symm

/-- With one container around, a new interface is made only if no equal one waits. -/
theorem yields_placeLiteral_alone (stem : String) {s : Scope} (hs : T.scope s)
    (hconts : s.containers = [c]) (hunb : ∀ i ∈ pending.waiting c, s.meaning [i.name] = [])
    (comments : Comments) (ms : List Member) (tparams : List TypeParam) :
    Yields T.realm ((placeLiteral stem s comments ms tparams).run pending) fun r => r.2 = pending ∨
      ∃ i, r.2 = pending.add c i ∧ i.tparams = tparams ∧ i.members = ms ∧ s.meaning [i.name] = [] ∧
        (pending.waiting c).findEqual? tparams ms = none := by
  rw [placeLiteral_run, hconts]
  have hchain : Yields T.realm (pure [c]) (· = [c]) := .pure rfl
  refine hchain.bind fun chain hchain => ?_
  subst hchain
  refine (yields_reusable_unbound hT hall hs hunb tparams ms).bind fun r hr => ?_
  cases r with
  | some i => exact .pure (.inl rfl)
  | none =>
    refine (yields_newName hT hall stem pending hs comments ms).bind fun x hx => ?_
    exact .pure (.inr ⟨_, rfl, rfl, rfl, hx.1, hr.symm⟩)

end

section
variable {root : Root} {f : File} (hf : f.Flat) (hnum : root.Numbered f)
include hf hnum

theorem yields_placement_shared (stem : String) {s : Scope} (hs : root.Inside f (s.enter (.ty t)))
    (t' : Ty) (h : pending.Shared root f) :
    Yields (root.territory f).realm ((placement? stem (s.enter (.ty t)) t').run pending) fun r =>
      r.2.Shared root f := by
  have hall : (root.territory f).AllNames := fun _ _ _ => trivial
  unfold placement?
  split
  · rename_i info ms
    split
    · exact .pure h
    · rw [StateT.run_bind, hf.paramsOf hs]
      refine (yields_placeLiteral_alone hnum.territory hall stem hs.enters (hf.plain hs).containers
        (fun i hi => h.unbound hi hs) info.comments ms []).bind fun r hr => ?_
      refine .pure ?_
      rcases hr with heq | ⟨i, heq, htps, rfl, hunb, hnew⟩
      · exact heq ▸ h
      · refine heq ▸ h.add htps (htps ▸ hnew) fun hs' => ?_
        rw [hf.meaning_eq hnum hs' hs, hunb]
  · exact .pure h

/-- What is kept by every step of a run: what waits, and what the containers were given, has different
members. -/
structure Record.Shares (root : Root) (f : File) (log : Record) (pending : PendingByScope) (σ : Session) :
    Prop where
  faithful : σ.Faithful (root.territory f).realm
  waiting : pending.Shared root f
  given : ∀ {c is}, log.Gives c is → is.Pairwise InterfaceDecl.Unlike

theorem leaveTy_shares (stem : String) {s : Scope} (hs : root.Inside f (s.enter (.ty t))) (t' : Ty) :
    (keepingRecord (Record.Shares root f)).Ends ((recordedHooks stem).leaveTy (s.enter (.ty t)) t') := by
  intro (log : Record) pending σ r hI hr
  rw [leaveTy_run, StateT.run_bind] at hr
  obtain ⟨⟨⟨placement, pending'⟩, σ'⟩, hp, hr⟩ := bind_eq_ok.1 hr
  obtain ⟨hshd, hσ'⟩ := yields_placement_shared hf hnum stem hs t' hI.waiting σ _ _ hI.faithful hp
  cases placement with
  | none =>
    cases hr
    exact ⟨List.Subset.refl _, ⟨hσ', hshd, hI.given⟩, trivial⟩
  | some p =>
    cases hr
    refine ⟨List.subset_cons_self _ _, ⟨hσ', hshd, fun hgives => ?_⟩, trivial⟩
    exact hI.given ((List.mem_cons.1 hgives).resolve_left fun heq => by cases heq)

omit hf hnum in
theorem newMembers_shares (stem : String) (c : Scope) (owner : Node) (ds : List Decl) :
    (keepingRecord (Record.Shares root f)).Ends ((recordedHooks stem).newMembers c owner ds) := by
  intro (log : Record) pending σ r hI hr
  rw [newMembers_run] at hr
  cases hr
  refine ⟨List.subset_cons_self _ _, ⟨hI.faithful, hI.waiting.without c, fun hgives => ?_⟩, trivial⟩
  rcases List.mem_cons.1 hgives with heq | hgives
  · cases heq
    exact hI.waiting.different c
  · exact hI.given hgives

end

/-- **No two interfaces that a run gives a container have equal members**, if the file is flat. -/
theorem recordAnew_shared {root : Root} {f : File} (hdeps : root.deps.InOrder) (hf : f.Flat)
    {stem : String} {remember : Bool} {e : Edited File}
    (h : recordAnew stem root remember f = .ok (e, log)) {is : Pending} (hgives : log.Gives c is) :
    is.Pairwise InterfaceDecl.Unlike := by
  have hnum := Root.numbered_number hdeps f
  have hblds : (recordedHooks stem).Builds
      (keepingRecord (Record.Shares root (f.number root.deps.nextId).1))
      (fun s n => root.Inside (f.number root.deps.nextId).1 (s.enter n)) (fun _ _ _ => True)
      (fun _ _ _ _ _ _ => True) (fun _ _ _ _ _ _ => True) :=
    builds_of_ends _ Root.Inside.within (fun owner ds _ => newMembers_shares stem _ owner ds)
      (fun _ _ => .pure) fun t' hs => leaveTy_shares (hf.number _) hnum stem hs t'
  simp only [recordAnew, recordExtraction, StateT.run_bind] at h
  obtain ⟨r, hr, h⟩ := bind_eq_ok.1 h
  obtain ⟨⟨⟨⟨file', log'⟩, pending'⟩, σ'⟩, hwalk, hr⟩ := bind_eq_ok.1 hr
  cases hr
  cases h
  have hstart : Record.Shares root (f.number root.deps.nextId).1 [] []
      { memo := if remember then some {} else none } :=
    ⟨Session.faithful_fresh hnum.territory.apart remember,
      ⟨fun _ => .nil, fun hi => absurd hi List.not_mem_nil, fun hi => absurd hi List.not_mem_nil⟩,
      fun hgives => absurd hgives List.not_mem_nil⟩
  exact (walkFile_builds hblds _ .file [] _ _ _ hstart hwalk).2.1.given hgives

/-! ## References -/

theorem Node.Extracts.mono_inside {root : Root} {f : File} {given given' : Scope → Pending → Prop}
    {stands stands' : Scope → Ty → Ty → Prop}
    (hgiven : ∀ {c is}, root.Inside f c → c.isContainer = true → given c is → given' c is)
    (hstd : ∀ {s t r}, root.Inside f s → stands s t r → stands' s t r) {s : Scope}
    (hs : root.Inside f (s.enter n)) (h : n.Extracts given stands s n') : n.Extracts given' stands' s n' := by
  induction h with
  | rebuilt hn halike hstays hlen _ ih =>
    exact .rebuilt hn halike hstays hlen fun i m m' hm hm' =>
      ih i m m' hm hm' (.child hs rfl (List.mem_of_getElem? hm))
  | container hds hn' hg hlen _ ih =>
    refine .container hds hn' (hgiven hs ?_ hg) hlen fun i d d' hd hd' => ih i d d' hd hd' ?_
    · exact Option.isSome_iff_exists.2 ⟨_, hds⟩
    · exact .child hs rfl (Node.children_of_members? hds ▸ List.mem_map_of_mem (List.mem_of_getElem? hd))
  | replaced hname hst hlen _ ih =>
    refine .replaced hname (hstd hs hst) hlen fun i m m' hm hm' => ih i m m' hm hm' ?_
    exact .child hs rfl (List.mem_map_of_mem (List.mem_of_getElem? hm))

theorem equivBEq_list {α : Type} [BEq α] [EquivBEq α] : EquivBEq (List α) where
  symm {as bs} h := by
    induction as generalizing bs with
    | nil => cases bs with
      | nil => rfl
      | cons b bs => cases h
    | cons a as ih => cases bs with
      | nil => cases h
      | cons b bs =>
        rw [List.cons_beq_cons, Bool.and_eq_true] at h ⊢
        exact ⟨BEq.symm h.1, ih h.2⟩
  trans {as bs cs} h h' := by
    induction as generalizing bs cs with
    | nil => cases bs with
      | nil => exact h'
      | cons b bs => cases h
    | cons a as ih => cases bs with
      | nil => cases h
      | cons b bs => cases cs with
        | nil => cases h'
        | cons c cs =>
          rw [List.cons_beq_cons, Bool.and_eq_true] at h h' ⊢
          exact ⟨BEq.trans h.1 h'.1, ih h.2 h'.2⟩

/-- The name of the first of the interfaces with those members. -/
def Pending.nameFor (is : Pending) (ms : List Member) : Ident :=
  ((is.find? fun i => i.members == ms).map (·.name)).getD ""

theorem Pending.nameFor_congr (is : Pending) {ms ms' : List Member} (h : (ms == ms') = true) :
    is.nameFor ms = is.nameFor ms' := by
  have := equivBEq_list (α := Member)
  have hfind : (fun i : InterfaceDecl => i.members == ms) = fun i => i.members == ms' :=
    funext fun i => BEq.congr_right h
  rw [nameFor, nameFor, hfind]

theorem Pending.name_eq_nameFor {is : Pending} (h : is.Pairwise InterfaceDecl.Unlike) {i : InterfaceDecl}
    (hi : i ∈ is) {ms : List Member} (hms : (i.members == ms) = true) : i.name = is.nameFor ms := by
  have := equivBEq_list (α := Member)
  induction h with
  | nil => cases hi
  | @cons j is hj _ ih =>
    rw [nameFor, List.find?_cons]
    cases hjms : j.members == ms with
    | true =>
      rcases List.mem_cons.1 hi with rfl | hi
      · rfl
      · cases (hj i hi).symm.trans (BEq.trans hjms (BEq.symm hms))
    | false =>
      rcases List.mem_cons.1 hi with rfl | hi
      · cases hms.symm.trans hjms
      · exact ih hi

/-- The reference without arguments takes the place of a literal whose members are those of an interface, and
names that interface. -/
inductive Pending.StandsFor (is : Pending) (name : List Member → Ident) : Ty → Ty → Prop
  | mk {info : NodeInfo} {ms : List Member} {i : InterfaceDecl} (hi : i ∈ is)
    (hmembers : (i.members == ms) = true) (hname : i.name = name ms) :
    StandsFor is name (.object info ms) (.ref {} [name ms] [])

/-- **Equal literals share one interface.** If a file has no container in it and introduces no type parameter
or mapped-type key, then the interfaces that extraction adds to it have different members. The name of the
interface that a literal is replaced by, once the literals in it are replaced, is told by its members: equal
members, equal names. -/
theorem extractInterfaces_shares (lib : Library) (pedantic remember : Bool) (stem : String)
    (hflat : lib.file.Flat) :
    ∃ e is name,
      (Pass.extractInterfaces stem).runAnew (lib.root pedantic) remember lib.file = .ok e ∧
      is.Pairwise InterfaceDecl.Unlike ∧
      (∀ ms ms' : List Member, (ms == ms') = true → name ms = name ms') ∧
      (Node.file lib.numbered).Extracts (fun _ js => js = is) (fun _ => Pending.StandsFor is name)
        (.ofRoot (lib.root pedantic)) (.file e.value) := by
  let root := lib.root pedantic
  have hdeps : root.deps.InOrder := Dependencies.inOrder_ofFiles lib.deps
  have hnumbered : lib.numbered.Flat := hflat.number _
  obtain ⟨e, log, hanew, hrecord⟩ := lib.recordAnew_run pedantic remember stem
  obtain ⟨-, hextracts⟩ := recordAnew_extracts hrecord
  have h := recordAnew_extracted hdeps stem remember lib.file hrecord
  -- The file is the only container that is given interfaces.
  have htop : ∀ {s c : Scope}, root.Inside lib.numbered s → c ∈ s.containers → c = root.top lib.numbered := by
    intro s c hs hc
    rw [(hnumbered.plain hs).containers] at hc
    exact List.mem_singleton.1 hc
  have hunlike : (log.given (root.top lib.numbered)).Pairwise InterfaceDecl.Unlike := by
    cases hnext : log.next? (root.top lib.numbered) with
    | none => rw [Record.given, hnext]; exact .nil
    | some is =>
      obtain ⟨c, -, hgives⟩ := Record.gives_of_next? hnext
      rw [Record.given, hnext]
      exact recordAnew_shared hdeps hflat hrecord hgives
  refine ⟨e, log.given (root.top lib.numbered), (log.given (root.top lib.numbered)).nameFor, hanew, hunlike,
    fun _ _ => Pending.nameFor_congr _, (h.extractsTo hextracts).mono_inside ?_ ?_ .file⟩
  · intro c is hc hcontainer his
    rw [his, htop hc (List.mem_filter.2 ⟨c.self_mem_outwards, hcontainer⟩)]
  · rintro s t r hs ⟨hc, hi, hparams, hmembers⟩
    obtain rfl := htop hs hc
    rw [hnumbered.paramsOf hs] at hparams
    have hname := Pending.name_eq_nameFor hunlike hi hmembers
    rw [TypeParam.map_asTy_of_beq hparams, hname]
    exact .mk hi hmembers hname

/-- `var a: { p: { x: string } }` and `function f(b: { p: { x: string } }): { x: string }`. -/
def repeatedLiterals : Library where
  name := "lib"
  deps := []
  file := File.ofMembers "lib"
    [.ofVar "a" (.ofMembers [.ofType "p" (.ofMembers [.ofType "x" .string])]),
     .ofFunction "f" (.ofParams [.ofType "b" (.ofMembers [.ofType "p" (.ofMembers [.ofType "x" .string])])]
       (some (.ofMembers [.ofType "x" .string])))]

/-- The five literals get two interfaces. -/
theorem extractInterfaces_shares_repeated :
    repeatedLiterals.file.Flat ∧
    ∃ e is name,
      (Pass.extractInterfaces "Anon").runAnew (repeatedLiterals.root false) false repeatedLiterals.file =
        .ok e ∧
      is.Pairwise InterfaceDecl.Unlike ∧
      (Node.file repeatedLiterals.numbered).Extracts (fun _ js => js = is)
        (fun _ => Pending.StandsFor is name) (.ofRoot (repeatedLiterals.root false)) (.file e.value) ∧
      e.value.members.map Decl.name? = [some "a", some "f", some "AnonX", some "AnonP"] := by
  have hflat : repeatedLiterals.file.Flat := by
    intro d hd
    have hall : repeatedLiterals.file.members.all (fun d => (Node.decl d).allTo
        (fun n => !n.isContainer && n.tparams.isEmpty && n.typeKey?.isNone) 10) = true := by decide +kernel
    exact .of_allTo (List.all_eq_true.1 hall d hd)
  obtain ⟨e, is, name, he, hunlike, -, hextracts⟩ :=
    extractInterfaces_shares repeatedLiterals false false "Anon" hflat
  have hnames : (((Pass.extractInterfaces "Anon").runAnew (repeatedLiterals.root false) false
      repeatedLiterals.file).toOption.any fun e =>
        e.value.members.map Decl.name? == [some "a", some "f", some "AnonX", some "AnonP"]) = true := by
    decide +kernel
  rw [he, Except.toOption, Option.any_some, beq_iff_eq] at hnames
  exact ⟨hflat, e, is, name, he, hunlike, hextracts, hnames⟩

end Ambient
