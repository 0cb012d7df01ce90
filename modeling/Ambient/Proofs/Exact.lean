import Ambient.Proofs.Leftovers

/-!
# Extraction is exact

A run that extracts interfaces rebuilds a file from the bottom up (`Node.Extracts`). A literal that gets a
name, once the literals in it have theirs, becomes a reference. A container gets interfaces after what
became of its declarations. Everything else only gets other parts.

* `recordAnew_extracts`: which references and interfaces these are is on the record of the run.
* `extractInterfaces_exact`: every reference names an interface that a container around the literal is
  given and that says what the literal says, every interface was made of a literal, and none is left
  waiting at the end.
-/

namespace Ambient

/-! ## What extraction makes of a node -/

/-- What extraction makes of the node `n` at `s`, if containers are given interfaces as `given` says and
`stands` tells which references may take the place of a literal. -/
inductive Node.Extracts (given : Scope → Pending → Prop) (stands : Scope → Ty → Ty → Prop) :
    Scope → Node → Node → Prop
  | rebuilt {s : Scope} {n n' : Node} (hn : n.members? = none) (halike : n.Alike n')
    (hstays : ∀ t, n' = .ty t → ¬ (s.enter n).GivesName t)
    (hlength : n'.children.length = n.children.length)
    (h : ∀ (i : Nat) (m m' : Node), n.children[i]? = some m → n'.children[i]? = some m' →
      Extracts given stands (s.enter n) m m') : Extracts given stands s n n'
  | container {s : Scope} {n n' : Node} {ds ds' : List Decl} {is : Pending}
    (hds : n.members? = some ds) (hn' : n.withMembers? (ds' ++ is.map .iface) = some n')
    (hgiven : given (s.enter n) is) (hlength : ds'.length = ds.length)
    (h : ∀ (i : Nat) (d d' : Decl), ds[i]? = some d → ds'[i]? = some d' →
      Extracts given stands (s.enter n) (.decl d) (.decl d')) : Extracts given stands s n n'
  | replaced {s : Scope} {info : NodeInfo} {ms ms' : List Member} {r : Ty}
    (hname : (s.enter (.ty (.object info ms))).GivesName (.object info ms'))
    (hstands : stands (s.enter (.ty (.object info ms))) (.object info ms') r)
    (hlength : ms'.length = ms.length)
    (h : ∀ (i : Nat) (m m' : Member), ms[i]? = some m → ms'[i]? = some m' →
      Extracts given stands (s.enter (.ty (.object info ms))) (.member m) (.member m')) :
    Extracts given stands s (.ty (.object info ms)) (.ty r)

/-- What becomes of the members of a literal at `s`. -/
structure Member.Extracts (given : Scope → Pending → Prop) (stands : Scope → Ty → Ty → Prop) (s : Scope)
    (ms ms' : List Member) : Prop where
  length_eq : ms'.length = ms.length
  parts : ∀ (i : Nat) (m m' : Member), ms[i]? = some m → ms'[i]? = some m' →
    (Node.member m).Extracts given stands s (.member m')

variable {n n' : Node} {s c : Scope}

section
variable {given given' : Scope → Pending → Prop} {stands stands' : Scope → Ty → Ty → Prop}

theorem Node.Extracts.mono (hgiven : ∀ {c is}, given c is → given' c is)
    (hstd : ∀ {s t r}, stands s t r → stands' s t r) (h : n.Extracts given stands s n') :
    n.Extracts given' stands' s n' := by
  induction h with
  | rebuilt hn halike hstays hlen _ ih => exact .rebuilt hn halike hstays hlen ih
  | container hds hn' hg hlen _ ih => exact .container hds hn' (hgiven hg) hlen ih
  | replaced hname hs hlen _ ih => exact .replaced hname (hstd hs) hlen ih

theorem Member.Extracts.mono (hgiven : ∀ {c is}, given c is → given' c is)
    (hstd : ∀ {s t r}, stands s t r → stands' s t r) {ms ms' : List Member}
    (h : Member.Extracts given stands s ms ms') : Member.Extracts given' stands' s ms ms' :=
  ⟨h.length_eq, fun i m m' hm hm' => (h.parts i m m' hm hm').mono hgiven hstd⟩

end

/-! ## What is on the record -/

/-- The reference takes the place of the literal. -/
def Record.Puts (log : Record) (s : Scope) (t r : Ty) : Prop :=
  ∃ p, .replaced s t p ∈ log ∧ r = p.reference s t

/-- What became of a node, according to the record. -/
abbrev Node.ExtractsBy (log : Record) : Scope → Node → Node → Prop :=
  Node.Extracts log.Gives log.Puts

theorem Node.Extracts.later {log log' : Record} (hlog : log ⊆ log') (h : n.ExtractsBy log s n') :
    n.ExtractsBy log' s n' :=
  h.mono (fun hg => hlog hg) fun ⟨p, hp, hr⟩ => ⟨p, hlog hp, hr⟩

/-- Every literal that was replaced got a name, and what became of its members is known. -/
def Record.Accounted (log : Record) : Prop :=
  ∀ {s : Scope} {t : Ty} {p : Placement}, .replaced s t p ∈ log →
    ∃ (s₀ : Scope) (info : NodeInfo) (ms ms' : List Member), s = s₀.enter (.ty (.object info ms)) ∧
      t = .object info ms' ∧ s.GivesName t ∧ Member.Extracts log.Gives log.Puts s ms ms'

/-- How the computations of a run end, if `I` holds of the record, of what waits and of the session: the
record only grows, and `I` still holds. -/
def keepingRecord (I : Record → PendingByScope → Session → Prop) : Logic Recording where
  World := Record
  le w w' := w ⊆ w'
  refl _ := List.Subset.refl _
  trans := List.Subset.trans
  ends w x P := ∀ pending σ r, I w pending σ → ((x.run w).run pending).run σ = .ok r →
    w ⊆ r.1.1.2 ∧ I r.1.1.2 r.1.2 r.2 ∧ P r.1.1.1 r.1.1.2
  pure h _ _ _ hI hr := by
    cases hr
    exact ⟨List.Subset.refl _, hI, h⟩
  bind {w α β x f P Q} hx hf pending σ r hI hr := by
    simp only [StateT.run_bind] at hr
    cases hr₁ : ((x.run w).run pending).run σ with
    | error e => rw [hr₁] at hr; cases hr
    | ok r₁ =>
      rw [hr₁] at hr
      obtain ⟨hw₁, hI₁, hP⟩ := hx pending σ r₁ hI hr₁
      obtain ⟨hw₂, hI₂, hQ⟩ := hf _ _ hw₁ hP _ _ r hI₁ hr
      exact ⟨List.Subset.trans hw₁ hw₂, hI₂, hQ⟩

theorem Node.Becomes.extracts {log : Record} (h : n.Becomes log s n') : n.ExtractsBy log s n' := by
  induction h with
  | rebuilt hn halike hstays hlen _ ih => exact .rebuilt hn halike hstays hlen ih
  | container hds hn' hgiven hlen _ ih => exact .container hds hn' hgiven hlen ih
  | replaced hlog hname hlen _ ih =>
    subst hlog
    refine .replaced hname ⟨_, List.mem_append_right _ (.head _), rfl⟩ hlen fun i m m' hm hm' => ?_
    exact (ih i m m' hm hm').later fun _ he => List.mem_append_right _ (.tail _ he)

theorem Record.Explained.accounted {log : Record} (h : log.Explained) : log.Accounted := by
  intro s t p hmem
  obtain ⟨later, earlier, rfl⟩ := List.append_of_mem hmem
  obtain ⟨s₀, info, ms, ms', hs, ht, hname, hms⟩ := h rfl
  refine ⟨s₀, info, ms, ms', hs, ht, hname, hms.length_eq, fun i m m' hm hm' => ?_⟩
  exact (hms.parts hm hm').extracts.later fun _ he => List.mem_append_right _ (.tail _ he)

/-- **What extraction makes of a file**, according to its record. -/
theorem recordAnew_extracts {root : Root} {f : File} {stem : String} {remember : Bool} {e : Edited File}
    {log : Record} (h : recordAnew stem root remember f = .ok (e, log)) : log.Accounted ∧
      (Node.file (f.number root.deps.nextId).1).ExtractsBy log (.ofRoot root) (.file e.value) := by
  simp only [recordAnew] at h
  obtain ⟨⟨⟨file, log'⟩, σ'⟩, hr, h⟩ := bind_eq_ok.1 h
  cases h
  obtain ⟨hexpl, hbec⟩ := recordExtraction_becomes hr
  exact ⟨hexpl.accounted, hbec.extracts⟩

/-! ## Exactness -/

/-- The reference names an interface that a container around `s` is given. The interface has the members
of the literal `t`, it is generic over the type parameters that `t` depends on, and the arguments of the
reference are these type parameters. -/
inductive Scope.Refers (given : Scope → Pending) (s : Scope) : Ty → Ty → Prop
  | mk {info : NodeInfo} {ms : List Member} {c : Scope} {i : InterfaceDecl} (hc : c ∈ s.containers)
    (hi : i ∈ given c) (hparams : (i.tparams == s.paramsOf (.object info ms)) = true)
    (hmembers : (i.members == ms) = true) :
    Refers given s (.object info ms) (.ref {} [i.name] (i.tparams.map TypeParam.asTy))

/-- What becomes of a node, if each container is given those interfaces and the references name them. -/
abbrev Node.ExtractsTo (given : Scope → Pending) : Scope → Node → Node → Prop :=
  Node.Extracts (fun c is => is = given c) (Scope.Refers given)

/-- The interface in the container `c` was made of a literal of the file, when the literals in that one
had their names. -/
structure Root.MadeOfLiteral (root : Root) (f : File) (given : Scope → Pending) (c : Scope)
    (i : InterfaceDecl) : Prop where
  literal : ∃ s info ms, root.At f s (.ty (.object info ms)) ∧ c ∈ s.containers ∧
    s.GivesName (.object info i.members) ∧ i.tparams = s.paramsOf (.object info i.members) ∧
    Member.Extracts (fun c is => is = given c) (Scope.Refers given) s ms i.members

def Record.given (log : Record) (c : Scope) : Pending := (log.next? c).getD []

theorem Record.given_congr (log : Record) {d : Scope} (h : c.key = d.key) : log.given c = log.given d := by
  rw [given, given, next?, next?, h]

theorem TypeParam.map_asTy_of_beq {ps qs : List TypeParam} (h : (ps == qs) = true) :
    ps.map TypeParam.asTy = qs.map TypeParam.asTy := by
  have hnames := congrArg (List.map fun x => Ty.ref {} [x] []) (TypeParam.names_of_beq h)
  rwa [List.map_map, List.map_map] at hnames

namespace Extracted

variable {root : Root} {f g : File} {log : Record} (h : Extracted root f g log)
include h

theorem eq_given {is : Pending} (hgives : log.Gives c is) : is = log.given c := by
  have hsome : (log.next? c).isSome := by
    rw [Record.next?, List.findSome?_isSome_iff]
    exact ⟨_, List.mem_reverse.2 hgives, by simp [Event.given?]⟩
  obtain ⟨js, hjs⟩ := Option.isSome_iff_exists.1 hsome
  obtain ⟨c', hkey, hgives'⟩ := Record.gives_of_next? hjs
  rw [Record.given, hjs]
  exact Record.gives_inj h.once hgives hgives' hkey.symm

theorem given_eq_of_next? {later earlier : Record} (hlog : log = later ++ earlier) {is : Pending}
    (hnext : later.next? c = some is) : log.given c = is := by
  obtain ⟨c', hkey, hlater⟩ := Record.gives_of_next? hnext
  have hgives : log.Gives c' is := hlog ▸ List.mem_append_left _ hlater
  rw [h.eq_given hgives, log.given_congr hkey]

theorem refers {t r : Ty} (hputs : log.Puts s t r) : s.Refers log.given t r := by
  obtain ⟨p, hp, rfl⟩ := hputs
  obtain ⟨later, earlier, hlog⟩ := List.append_of_mem hp
  obtain ⟨-, hstd, ⟨is, hnext, hmem, -⟩, -⟩ := h.settled hlog
  obtain ⟨info, ms, rfl, hmems⟩ := hstd.literal
  rw [Placement.reference, ← TypeParam.map_asTy_of_beq hstd.sameParams]
  refine .mk (hstd.mem_containers List.mem_concat_self) ?_ hstd.sameParams hmems
  rwa [h.given_eq_of_next? hlog hnext]

theorem extractsTo (hn : n.ExtractsBy log s n') : n.ExtractsTo log.given s n' :=
  hn.mono h.eq_given h.refers

theorem made_of_mem_given {i : InterfaceDecl} (hi : i ∈ log.given c) :
    ∃ later earlier s info ms p, log = later ++ .replaced s (.object info ms) p :: earlier ∧
      p.interface = i ∧ p.container.key = c.key ∧ i.Spells p.container ms (s.paramsOf (.object info ms)) := by
  obtain ⟨is, hnext⟩ : ∃ is, log.next? c = some is := by
    cases hnext : log.next? c with
    | none => simp [Record.given, hnext] at hi
    | some is => exact ⟨is, rfl⟩
  obtain ⟨c', hkey, hgives⟩ := Record.gives_of_next? hnext
  rw [Record.given, hnext] at hi
  obtain ⟨s, info, ms, p, hevent, hp, hpkey, hsp⟩ := h.made hgives i hi
  obtain ⟨later, earlier, hlog⟩ := List.append_of_mem hevent
  exact ⟨later, earlier, s, info, ms, p, hlog, hp, hpkey.trans hkey, hsp⟩

theorem madeOfLiteral (hlog : log.Accounted) (hc : root.Inside f c) {i : InterfaceDecl}
    (hi : i ∈ log.given c) : root.MadeOfLiteral f log.given c i := by
  obtain ⟨later, earlier, s, info, ms', p, heq, rfl, hkey, hsp⟩ := h.made_of_mem_given hi
  obtain ⟨s₀, info', ms, ms'', rfl, ht, hname, hms⟩ := hlog (heq ▸ List.mem_append_cons_self)
  cases ht
  obtain ⟨hin, hstd, -⟩ := h.settled heq
  have hcont := hstd.mem_containers List.mem_concat_self
  obtain rfl : p.container = c :=
    h.numbered.key_inj (hin.container hcont).enters hc.enters hkey
  rw [← hsp.members] at hname hms
  refine ⟨_, info, ms, ⟨hin, rfl⟩, hcont, hname, ?_, hms.mono h.eq_given h.refers⟩
  rw [hsp.members, hsp.tparams]

theorem pairwise_given (c : Scope) : (log.given c).Pairwise InterfaceDecl.Differs := by
  cases hgiven : log.given c with
  | nil => exact .nil
  | cons i is =>
    have hi : i ∈ log.given c := hgiven ▸ (.head _)
    obtain ⟨later, earlier, s, info, ms, p, hlog, -, hkey, -⟩ := h.made_of_mem_given hi
    obtain ⟨js, hnext, -, hapart⟩ := (h.settled hlog).given
    rwa [← hgiven, ← log.given_congr hkey, h.given_eq_of_next? hlog hnext]

end Extracted

theorem walkFile_leaves_none {root : Root} {f : File} (hnum : root.Numbered f) (stem : String) {σ σ' : Session}
    (hσ : σ.Faithful (root.territory f).realm) {e : Edited File} {pending : PendingByScope}
    (hrun : ((walkFile (interfaceHooks stem) (.ofRoot root) f).run []).run σ = .ok ((e, pending), σ')) :
    pending = [] := by
  obtain ⟨hplain, hend⟩ := walkFile_related (hooks_recorded hnum stem) .file [] [] σ (Recorded.start hσ)
  rw [hrun] at hplain
  obtain ⟨r, hr, hplain⟩ := bind_eq_ok.1 hplain
  have hpend : r.1.2 = pending := congrArg (fun r => r.1.2) (Except.ok.inj hplain)
  -- What waits goes into a container around, and the library is in none.
  have hkeys : pending.map Prod.fst = [] := by
    refine List.eq_nil_iff_forall_not_mem.2 fun k hk => ?_
    obtain ⟨c, hc, -⟩ := (hend r hr).keys k (hpend ▸ hk)
    cases hc
  exact List.map_eq_nil_iff.1 hkeys

theorem Library.recordAnew_run (lib : Library) (pedantic remember : Bool) (stem : String) :
    ∃ e log, (Pass.extractInterfaces stem).runAnew (lib.root pedantic) remember lib.file = .ok e ∧
      recordAnew stem (lib.root pedantic) remember lib.file = .ok (e, log) := by
  obtain ⟨e, -, -, hanew, -⟩ := lib.extractInterfaces_run pedantic remember stem
  have hrec := hanew
  rw [runAnew_eq_recordAnew (Dependencies.inOrder_ofFiles lib.deps)] at hrec
  obtain ⟨r, hr, hrec⟩ := bind_eq_ok.1 hrec
  cases hrec
  exact ⟨r.1, r.2, hanew, hr⟩

/-- **Extraction is exact and emits everything once.** A run succeeds and leaves no interface waiting. What it
makes of the file is told by the interfaces that each container is given, which have different names, upper
and lower case apart: a container consists of what became of its declarations, in order, and then of these
interfaces; a literal that gets a name becomes a reference to one that a container around it is given, with
equal members and type parameters; and everything else only gets other parts. Every interface was made of a
literal. -/
theorem extractInterfaces_exact (lib : Library) (pedantic remember : Bool) (stem : String) :
    ∃ e σ given,
      ((walkFile (interfaceHooks stem) (.ofRoot (lib.root pedantic)) lib.numbered).run []).run
        { memo := if remember then some {} else none } = .ok ((e, []), σ) ∧
      (Pass.extractInterfaces stem).runAnew (lib.root pedantic) remember lib.file = .ok e ∧
      (Node.file lib.numbered).ExtractsTo given (.ofRoot (lib.root pedantic)) (.file e.value) ∧
      (∀ c, (given c).Pairwise InterfaceDecl.Differs) ∧
      ∀ c, (lib.root pedantic).Inside lib.numbered c → ∀ i ∈ given c,
        (lib.root pedantic).MadeOfLiteral lib.numbered given c i := by
  have hnum := lib.numbered_root pedantic
  have hσ := Session.faithful_fresh hnum.territory.apart remember
  obtain ⟨e, log, hanew, hrecord⟩ := lib.recordAnew_run pedantic remember stem
  obtain ⟨haccounted, hextracts⟩ := recordAnew_extracts hrecord
  have h := recordAnew_extracted (Dependencies.inOrder_ofFiles lib.deps) stem remember lib.file hrecord
  have hrun : (extractInterfaces stem (.ofRoot (lib.root pedantic)) lib.numbered).run
      { memo := if remember then some {} else none } >>= (fun r => pure r.1) = .ok e := hanew
  rw [extractInterfaces, StateT.run_bind] at hrun
  cases hwalk : ((walkFile (interfaceHooks stem) (.ofRoot (lib.root pedantic)) lib.numbered).run []).run
      { memo := if remember then some {} else none } with
  | error e => rw [hwalk] at hrun; cases hrun
  | ok r =>
    obtain ⟨⟨e', pending⟩, σ⟩ := r
    obtain rfl := walkFile_leaves_none hnum stem hσ hwalk
    rw [hwalk] at hrun
    cases hrun
    exact ⟨_, σ, log.given, rfl, hanew, h.extractsTo hextracts, h.pairwise_given, fun c hc i hi =>
      h.madeOfLiteral haccounted hc hi⟩

end Ambient
