import Ambient.Proofs.Capture
import Ambient.Proofs.Hygiene

/-!
# References that a run introduces

Numbering gives every node of a file a positive number, `this` apart, so the nodes with the number zero
are those that a run introduced. A scope of the file that a run gives comes from a scope of the given
file, or it is inside an extracted interface or an introduced reference (`Origin`,
`Root.Inside.origin`). In an extracted interface, the parts are what became of the parts of the literal
that it was made of.

So it is known in which containers an introduced reference stands, and it finds its interface if nothing
is in its way (`Extracted.introduced`).
-/

namespace Ambient

/-! ## Numbers -/

variable {x : Ident} {ts : List Ty} {n n' : Node} {info : NodeInfo} {q : QIdent} {later : Record}
  {s' : Scope} {t : Ty} {p : TypeParam}

theorem Node.mem_tparams (h : p ∈ n.tparams) :
    .tparam p ∈ n.children ∨ ∃ s, .sig s ∈ n.children ∧ .tparam p ∈ (Node.sig s).children := by
  have hsig : ∀ s : Signature, p ∈ s.tparams → .tparam p ∈ (Node.sig s).children := fun s hp =>
    List.mem_append_left _ (List.mem_append_left _ (List.mem_map_of_mem hp))
  unfold tparams at h
  split at h
  · rename_i d
    unfold Decl.tparams at h
    split at h
    · exact .inl (List.mem_append_left _ (List.mem_append_left _ (List.mem_append_left _
        (List.mem_map_of_mem h))))
    · exact .inl (List.mem_append_left _ (List.mem_append_left _ (List.mem_map_of_mem h)))
    · exact .inl (List.mem_append_left _ (List.mem_map_of_mem h))
    · exact .inr ⟨_, .head _, hsig _ h⟩
    · cases h
  · exact .inl (hsig _ h)
  iterate 5 · exact .inr ⟨_, .head _, hsig _ h⟩
  · cases h

/-- The node and all nodes that can be entered from it have positive numbers, `this` apart. -/
structure Node.Original (n : Node) : Prop where
  numbered : n.Numbered
  positive : n = .ty .this ∨ 0 < n.num

theorem Node.Original.child {m : Node} (h : n.Original) (hm : m ∈ n.children) : m.Original := by
  obtain ⟨-, hpos, hin⟩ := h.numbered
  have hm := n.children_subset_entries hm
  exact ⟨hin m hm, hpos m hm⟩

theorem Node.Original.id_ne_zero (h : (Node.ty (.ref info q ts)).Original) : info.id ≠ 0 :=
  Nat.pos_iff_ne_zero.1 (h.positive.resolve_left fun h => nomatch h)

theorem Node.Original.tparam (h : n.Original) (hp : p ∈ n.tparams) : (Node.tparam p).Original := by
  rcases mem_tparams hp with hp | ⟨s, hs, hp⟩
  · exact h.child hp
  · exact (h.child hs).child hp

theorem Scope.mem_tparams_enter {s : Scope} (h : (x, p) ∈ (s.enter n).tparams) :
    p ∈ n.tparams ∨ (x, p) ∈ s.tparams := by
  have hfold : ∀ (ps : List TypeParam) (ts : List (Ident × TypeParam)),
      (x, p) ∈ ps.foldl (fun ts p => (p.name, p) :: ts) ts → p ∈ ps ∨ (x, p) ∈ ts := by
    intro ps
    induction ps with
    | nil => exact fun ts h => .inr h
    | cons q ps ih =>
      intro ts h
      rcases ih _ h with h | h
      · exact .inl (.tail _ h)
      · rcases List.mem_cons.1 h with h | h
        · cases h
          exact .inl (.head _)
        · exact .inr h
  exact hfold _ _ h

section
variable {root : Root} {f : File} (hnum : root.Numbered f) {s : Scope} (hs : root.Inside f s)
include hnum hs

theorem Root.Inside.original (hn : s.current? = some n) : n.Original := by
  induction hs generalizing n with
  | file =>
    obtain ⟨hi, hf⟩ := hnum.file
    cases hn
    exact ⟨hf.numbered _ (.head _), (hf.between _ (.head _)).imp_right fun h =>
      Nat.lt_of_lt_of_le hf.pos h.1⟩
  | child _ hn₀ hm ih =>
    cases hn
    exact (ih hn₀).child hm

theorem Root.Inside.original_tparams (hp : (x, p) ∈ s.tparams) : (Node.tparam p).Original := by
  induction hs with
  | file =>
    rcases Scope.mem_tparams_enter hp with hp | hp
    · cases hp
    · cases hp
  | child hs hn hm ih =>
    rcases Scope.mem_tparams_enter hp with hp | hp
    · exact ((Root.Inside.child hs hn hm).original hnum rfl).tparam hp
    · exact ih hp

theorem Root.Inside.original_paramsOf (hp : p ∈ s.paramsOf t) : (Node.tparam p).Original := by
  obtain ⟨x, -, hx⟩ := hs.enters.entered.mem_paramsOf.1 hp
  exact hs.original_tparams hnum (mem_of_lookup hx)

end

/-! ## Names -/

theorem Root.Inside.isAbstract_eq_false {root : Root} {f : File} {s : Scope} (hs : root.Inside f s)
    (hn : s.current? = some n) (hquiet : n.isQuiet = false) (x : Ident) : s.isAbstract [x] = false := by
  have hnone : ∀ {s : Scope} {n : Node}, n.isQuiet = false → s.isAbstract [x] = false →
      (s.enter n).isAbstract [x] = false := by
    intro s n hquiet hs
    refine Bool.eq_false_iff.2 fun h => ?_
    rcases Scope.isAbstract_enter.1 h with h | h | h
    · cases n with
      | file f => cases h
      | decl d => cases d <;> first | cases h | cases hquiet
      | _ => cases hquiet
    · cases n with
      | member m => cases hquiet
      | _ => cases h
    · rw [hs] at h
      cases h
  induction hs generalizing n with
  | file => exact hnone rfl rfl
  | @child s n₀ m hs hn₀ hm ih =>
    cases hn
    refine hnone hquiet (ih hn₀ (Bool.eq_false_iff.2 fun h => ?_))
    rw [Node.isQuiet_of_isPart (Node.isPart_children h hm)] at hquiet
    cases hquiet

theorem Node.Becomes.isAbstract {log : Record} {s s₀ : Scope} (h : n.Becomes log s₀ n')
    (hs : ∀ x, s'.isAbstract [x] = true → s.isAbstract [x] = true)
    (hx : (s'.enter n').isAbstract [x] = true) : (s.enter n).isAbstract [x] = true := by
  rw [Scope.isAbstract_enter, h.names_tparams, h.typeKey?_eq] at hx
  rw [Scope.isAbstract_enter]
  exact hx.imp_right fun hx => hx.imp_right fun hx => hs x hx

/-- What a node of the result holds: what became of a node, an interface that a container was given, or
the type argument of an introduced reference. -/
theorem Node.Becomes.child {log : Record} {s : Scope} (h : n.Becomes log s n') {i : Nat} {m' : Node}
    (hm' : n'.children[i]? = some m') :
    (∃ m, n.children[i]? = some m ∧ m.Becomes log (s.enter n) m') ∨
      (∃ is j, log.Gives (s.enter n) is ∧ j ∈ is ∧ m' = .decl (.iface j) ∧ n.isQuiet = false) ∨
      ∃ info q ts, n' = .ty (.ref info q ts) ∧ info.id = 0 := by
  cases h with
  | rebuilt _ _ _ hlen h =>
    obtain ⟨m, hm⟩ : ∃ m, n.children[i]? = some m := by
      have hi := (List.getElem?_eq_some_iff.1 hm').1
      exact ⟨_, List.getElem?_eq_getElem (hlen ▸ hi)⟩
    exact .inl ⟨m, hm, h i m m' hm hm'⟩
  | @container _ _ _ _ ds ds' is hds hn' hgiven hlen h =>
    rw [children_of_members? (withMembers?_cases hn').1, List.getElem?_map] at hm'
    obtain ⟨d', hd', rfl⟩ := Option.map_eq_some_iff.1 hm'
    by_cases hi : i < ds'.length
    · rw [List.getElem?_append_left hi] at hd'
      have hd := List.getElem?_eq_getElem (show i < ds.length from hlen ▸ hi)
      refine .inl ⟨.decl _, ?_, h i _ d' hd hd'⟩
      rw [children_of_members? hds, List.getElem?_map, hd]
      rfl
    · rw [List.getElem?_append_right (Nat.le_of_not_lt hi)] at hd'
      obtain ⟨j, hj, rfl⟩ := List.mem_map.1 (List.mem_of_getElem? hd')
      refine .inr (.inl ⟨is, j, hgiven, hj, rfl, Bool.eq_false_iff.2 fun hquiet => ?_⟩)
      have hcont := isContainer_of_isQuiet hquiet
      rw [isContainer, hds] at hcont
      cases hcont
  | replaced => exact .inr (.inr ⟨_, _, _, rfl, rfl⟩)

/-! ## Where a scope of the result comes from -/

/-- The container of the result is in the place of the given one, and holds what became of it. -/
def Root.Replaces (root : Root) (f g : File) (log : Record) (c c' : Scope) : Prop :=
  root.Beside f g c c' ∧ Filled log.Gives c c'

/-- Where what became of the node that a scope is directly inside stands: in the same place, or in the
interface that was made of a literal around it. -/
inductive Root.StandsAt (root : Root) (f g : File) (log : Record) : Scope → Scope → Prop
  | inPlace {s s' : Scope} (h : root.Beside f g s s') : StandsAt root f g log s s'
  | member {s c : Scope} {info : NodeInfo} {ms ms' : List Member} {p : Placement} {i : Nat}
    {m m' : Member} (hs : s.current? = some (.ty (.object info ms)))
    (hevent : .replaced s (.object info ms') p ∈ log) (hc : root.Beside f g p.container c)
    (hm : ms[i]? = some m) (hm' : p.interface.members[i]? = some m') :
    StandsAt root f g log (s.enter (.member m))
      ((c.enter (.decl (.iface p.interface))).enter (.member m'))
  | child {s s' : Scope} {n n' m m' : Node} {i : Nat} (h : StandsAt root f g log s s')
    (hn : s.current? = some n) (hn' : s'.current? = some n') (hm : n.children[i]? = some m)
    (hm' : n'.children[i]? = some m') : StandsAt root f g log (s.enter m) (s'.enter m')

/-- Where a scope of the file `g` that a run gives for the file `f` comes from. -/
inductive Origin (root : Root) (f g : File) (log : Record) : Scope → Prop
  /-- It is in the place of a scope of the given file. -/
  | inPlace {s s' : Scope} {n n' : Node} (hs : root.Inside f (s.enter n))
    (hbeside : root.Beside f g (s.enter n) (s'.enter n')) (hn : n.Becomes log s n')
    (habstract : ∀ x, (s'.enter n').isAbstract [x] = true → (s.enter n).isAbstract [x] = true)
    (hcontainers : List.Forall₂ (root.Replaces f g log) (s.enter n).containers
      (s'.enter n').containers) : Origin root f g log (s'.enter n')
  /-- It is that of an interface which was made of a literal. -/
  | interface {c s : Scope} {later earlier : Record} {info : NodeInfo} {ms : List Member}
    {p : Placement} (hlog : log = later ++ .replaced s (.object info ms) p :: earlier)
    (hspells : p.interface.Spells p.container ms (s.paramsOf (.object info ms)))
    (habstract : ∀ x, c.isAbstract [x] = false) (hbeside : root.Beside f g p.container c)
    (hcontainers : List.Forall₂ (root.Replaces f g log) p.container.containers c.containers) :
    Origin root f g log (c.enter (.decl (.iface p.interface)))
  /-- It is inside a member of an interface that was made of a literal. -/
  | moved {s s₁ s' : Scope} {n n' : Node} {later earlier : Record} {info : NodeInfo}
    {ms : List Member} {p : Placement}
    (hlog : log = later ++ .replaced s₁ (.object info ms) p :: earlier)
    (hspells : p.interface.Spells p.container ms (s₁.paramsOf (.object info ms)))
    (hs : root.Inside f (s.enter n)) (hpart : n.isPart = true)
    (hstands : root.StandsAt f g log (s.enter n) (s'.enter n')) (hn : n.Becomes earlier s n')
    (habstract : ∀ x, (s'.enter n').isAbstract [x] = true → (s.enter n).isAbstract [x] = true)
    (houter : s₁ ∈ s.outwards) (hsame : s.containers = s₁.containers)
    (hcontainers : List.Forall₂ (root.Replaces f g log) p.container.containers
      (s'.enter n').containers)
    (hinterface : .decl (.iface p.interface) ∈ s'.stack) : Origin root f g log (s'.enter n')
  /-- It is inside a type parameter that was copied. -/
  | copied {s' : Scope} {n' : Node} (hn' : n'.Original) : Origin root f g log (s'.enter n')
  /-- It is inside a reference that was introduced. -/
  | under {s' : Scope} {n' : Node} {info : NodeInfo} {q : QIdent} {ts : List Ty}
    (href : .ty (.ref info q ts) ∈ s'.stack) (hid : info.id = 0) : Origin root f g log (s'.enter n')

theorem Scope.containers_enter_part (s : Scope) (h : n.isPart = true) :
    (s.enter n).containers = s.containers := by
  rw [containers_enter, if_neg]
  rw [Node.isContainer_of_isQuiet (Node.isQuiet_of_isPart h)]
  exact Bool.false_ne_true

section
variable {root : Root} {f g : File} {log : Record} (h : Extracted root f g log)
include h

theorem Origin.ofGiven {s : Scope} (hs : root.Inside f (s.enter n))
    (hbes : root.Beside f g (s.enter n) (s'.enter n')) (hquiet : n.isQuiet = false)
    (habs : ∀ x, (s'.enter n').isAbstract [x] = true → (s.enter n).isAbstract [x] = true)
    (hconts : List.Forall₂ (root.Replaces f g log) (s.enter n).containers
      (s'.enter n').containers) {is : Pending} (his : log.Gives (s.enter n) is) {j : InterfaceDecl}
    (hj : j ∈ is) : Origin root f g log ((s'.enter n').enter (.decl (.iface j))) := by
  obtain ⟨s₁, info, ms, p, hmem, rfl, hkey, hsp⟩ := h.made his j hj
  obtain ⟨later, earlier, hlog⟩ := List.append_of_mem hmem
  have hset := h.settled hlog
  have hmem := hset.standsFor.mem_containers (List.mem_append_right _ (.head _))
  have hcont : p.container = s.enter n :=
    h.numbered.key_inj (hset.inside.container hmem).enters hs.enters hkey
  refine .interface hlog hsp (fun x => ?_) (hcont ▸ hbes) (hcont ▸ hconts)
  refine Bool.eq_false_iff.2 fun hx => ?_
  have hx := habs x hx
  rw [hs.isAbstract_eq_false rfl hquiet x] at hx
  cases hx

theorem Origin.ofInterface {c s : Scope} {earlier : Record} {ms : List Member} {p : Placement}
    (hlog : log = later ++ .replaced s (.object info ms) p :: earlier)
    (hsp : p.interface.Spells p.container ms (s.paramsOf (.object info ms)))
    (habs : ∀ x, c.isAbstract [x] = false) (hbes : root.Beside f g p.container c)
    (hconts : List.Forall₂ (root.Replaces f g log) p.container.containers c.containers) {m' : Node}
    (hm' : m' ∈ (Node.decl (.iface p.interface)).children) :
    Origin root f g log ((c.enter (.decl (.iface p.interface))).enter m') := by
  have hin := (h.settled hlog).inside
  simp only [Node.children, Node.childrenOfDecl, hsp.members, hsp.tparams,
    hsp.inheritance, List.map_nil, List.append_nil, List.mem_append, List.mem_map] at hm'
  rcases hm' with ⟨tp, htp, rfl⟩ | ⟨x', hx', rfl⟩
  · exact .copied (hin.original_paramsOf h.numbered htp)
  · obtain ⟨s₀, info', ms₀, ms', rfl, ht, -, hren⟩ := h.explained hlog
    cases ht
    obtain ⟨i, hi⟩ := List.getElem?_of_mem hx'
    have hlt := (List.getElem?_eq_some_iff.1 hi).1
    have hx := List.getElem?_eq_getElem (show i < ms₀.length from hren.length_eq ▸ hlt)
    have hbec := hren.parts hx hi
    have hstd := Root.StandsAt.member (f := f) (g := g) rfl (hlog ▸ List.mem_append_cons_self) hbes
      hx (hsp.members ▸ hi)
    refine .moved hlog hsp (.child hin rfl (List.mem_map_of_mem (List.mem_of_getElem? hx)))
      rfl hstd hbec (fun x hx => ?_) (Scope.self_mem_outwards _) rfl ?_ (.head _)
    · refine hbec.isAbstract (fun y hy => ?_) hx
      rcases Scope.isAbstract_enter.1 hy with hy | hy | hy
      · obtain ⟨tp, htp, rfl⟩ := List.mem_map.1 hy
        have htp : tp ∈ p.interface.tparams := htp
        rw [hsp.tparams] at htp
        exact hin.enters.entered.isAbstract_of_mem_paramsOf htp
      · cases hy
      · rw [habs y] at hy
        cases hy
    · exact hconts

/-- **Every scope of the result comes from somewhere.** -/
theorem Root.Inside.origin (hs' : root.Inside g s') : Origin root f g log s' := by
  induction hs' with
  | file =>
    refine .inPlace .file .file h.becomes (fun x hx => ?_) ?_
    · exact h.becomes.isAbstract (fun _ hx => hx) hx
    · exact (h.becomes.turns rfl).containers .file .nil
  | @child s' n' m' _ hn' hm' ih =>
    obtain ⟨i, hi⟩ := List.getElem?_of_mem hm'
    cases ih with
    | @inPlace s s' n _ hs hbes hn habs hconts =>
      cases hn'
      rcases hn.child hi with ⟨m, hm, hbec⟩ | ⟨is, j, his, hj, rfl, hquiet⟩ | ⟨info, q, ts, rfl, hid⟩
      · have hbes := hbes.child rfl rfl hm hi
        have hmem := List.mem_of_getElem? hm
        refine .inPlace (.child hs rfl hmem) hbes hbec
          (fun x hx => hbec.isAbstract habs hx) ?_
        cases hpart : m.isPart with
        | false => exact (hbec.turns hpart).containers hbes hconts
        | true =>
          rw [Scope.containers_enter_part _ hpart,
            Scope.containers_enter_part _ (hbec.isPart_eq.trans hpart)]
          exact hconts
      · exact Origin.ofGiven h hs hbes hquiet habs hconts his hj
      · exact .under (.head _) hid
    | interface hlog hsp habs hbes hconts =>
      cases hn'
      exact Origin.ofInterface h hlog hsp habs hbes hconts hm'
    | @moved s s₁ s' n _ _ _ _ _ _ hlog hsp hs hpart hstd hn habs houter hsame hconts hif =>
      cases hn'
      rcases hn.child hi with ⟨m, hm, hbec⟩ | ⟨is, j, his, hj, rfl, hquiet⟩ | ⟨info, q, ts, rfl, hid⟩
      · have hmem := List.mem_of_getElem? hm
        have hmpart := Node.isPart_children (Node.isQuiet_of_isPart hpart) hmem
        refine .moved hlog hsp (.child hs rfl hmem) hmpart (hstd.child rfl rfl hm hi) hbec
          (fun x hx => hbec.isAbstract habs hx) ?_ ?_ ?_ ?_
        · exact .tail _ houter
        · rw [Scope.containers_enter_part _ hpart, hsame]
        · rw [Scope.containers_enter_part _ (hbec.isPart_eq.trans hmpart)]
          exact hconts
        · exact .tail _ hif
      · rw [Node.isQuiet_of_isPart hpart] at hquiet
        cases hquiet
      · exact .under (.head _) hid
    | copied hn₀ =>
      cases hn'
      exact .copied (hn₀.child hm')
    | under href hid => exact .under (.tail _ href) hid

end

/-! ## What an introduced reference finds -/

/-- The scope is directly inside a reference that was introduced, and in no other such reference. -/
structure Scope.Introduces (s : Scope) (q : QIdent) (ts : List Ty) : Prop where
  here : ∃ info, s.current? = some (.ty (.ref info q ts)) ∧ info.id = 0
  outermost : ∀ {info q ts}, .ty (.ref info q ts) ∈ s.stack.tail → info.id ≠ 0

/-- Nothing hides the interface of a placement from the scope `s'` of the result. Where the literal
stood, the name was no type parameter, mapped-type key or primitive type. In the containers up to that of
the interface, no import lists it and no global block is given it. And an extracted interface around
mentions it. -/
structure Unhidden (log : Record) (s : Scope) (p : Placement) (s' : Scope) : Prop where
  unsettled : s.isSettled [p.interface.name] = false
  unobstructed : Unobstructed log p
  mentioned : ∀ i, .decl (.iface i) ∈ s'.stack → i.info.id = 0 →
    [p.interface.name] ∈ namesMentioned i.tparams i.members

/-- What became of a numbered node is no introduced node, unless it is a literal that was replaced. -/
theorem Node.Becomes.introduced {log : Record} {s : Scope} (h : n.Becomes log s (.ty (.ref info q ts)))
    (hid : info.id = 0) (horig : n.Original) :
    ∃ later earlier t p, log = later ++ .replaced (s.enter n) t p :: earlier ∧
      Ty.ref info q ts = p.reference (s.enter n) t := by
  have hpos : ∀ ts', n ≠ .ty (.ref info q ts') := by
    rintro ts' rfl
    exact horig.id_ne_zero hid
  cases h with
  | rebuilt _ halike =>
    cases halike with
    | leaf => exact absurd rfl (hpos _)
    | ref => exact absurd rfl (hpos _)
  | container _ hn' =>
    obtain ⟨-, -, hpart, -⟩ := withMembers?_cases hn'
    cases hpart
  | replaced hlog => exact ⟨_, _, _, _, hlog, rfl⟩

theorem mem_of_append_eq {α : Type} {as bs cs ds : List α} {a c : α}
    (h : as ++ a :: bs = cs ++ c :: ds) (hc : c ∉ as) : a ∈ cs ++ [c] := by
  rcases List.append_eq_append_iff.1 h with ⟨es, rfl, he⟩ | ⟨es, rfl, he⟩
  · cases es with
    | nil | cons e es =>
      obtain ⟨rfl, -⟩ := List.cons.inj he
      simp
  · cases es with
    | nil =>
      obtain ⟨rfl, -⟩ := List.cons.inj he
      simp
    | cons e es =>
      obtain ⟨rfl, -⟩ := List.cons.inj he
      simp at hc

theorem StandsFor.innermost {s : Scope} {p : Placement} (h : StandsFor s t p) :
    ∃ c ∈ p.inner ++ [p.container], c.containers = s.containers := by
  obtain ⟨outer, houter⟩ := h.containers
  obtain ⟨c, rest, hcons⟩ := List.exists_cons_of_ne_nil
    (List.append_ne_nil_of_right_ne_nil p.inner (List.cons_ne_nil p.container []))
  have hconts : s.containers = [] ++ c :: (rest ++ outer) := by
    rw [houter, List.append_cons, hcons]
    rfl
  exact ⟨c, hcons ▸ (.head _), (Scope.containers_of_append hconts).trans hconts.symm⟩

theorem isSettled_of_isAbstract {s : Scope} (hs : s.isSettled [x] = false)
    (h : s'.isAbstract [x] = true → s.isAbstract [x] = true) : s'.isSettled [x] = false := by
  simp only [Scope.isSettled, Bool.or_eq_false_iff] at hs ⊢
  refine ⟨hs.1, Bool.eq_false_iff.2 fun habs => ?_⟩
  rw [h habs] at hs
  cases hs.2

section
variable {root : Root} {f g : File} {log : Record} (h : Extracted root f g log)
include h

theorem Extracted.next?_eq_none {between rest : Record} {e : Event}
    (hlog : log = later ++ e :: between ++ rest) {c : Scope} {is : Pending}
    (hc : later.next? c = some is) : between.next? c = none := by
  refine Option.eq_none_iff_forall_ne_some.2 fun is' his' => ?_
  obtain ⟨c₁, hkey₁, hgives₁⟩ := Record.gives_of_next? hc
  obtain ⟨c₂, hkey₂, hgives₂⟩ := Record.gives_of_next? his'
  have honce := h.once
  rw [hlog, List.append_assoc, List.filterMap_append, List.nodup_append] at honce
  refine honce.2.2 c₁.key.2 ?_ c₂.key.2 ?_ (by rw [hkey₁, hkey₂])
  · exact List.mem_filterMap.2 ⟨_, hgives₁, rfl⟩
  · exact List.mem_filterMap.2 ⟨_, List.mem_append_left _ (.tail _ hgives₂), rfl⟩

/-- A literal inside another one: the interface of the inner one does not go further in than that of the
outer one, if the outer one mentions it. -/
theorem Extracted.container_between {between earlier : Record} {s s₁ : Scope} {t₁ : Ty}
    {p p₁ : Placement}
    (hlog : log = later ++ .replaced s₁ t₁ p₁ :: between ++ .replaced s t p :: earlier)
    (hsame : s.containers = s₁.containers) (hment : [p.interface.name] ∈ s₁.freeNames t₁) :
    p₁.container ∈ p.inner ++ [p.container] := by
  have hset := h.settled hlog
  have hlog₁ : log = later ++ .replaced s₁ t₁ p₁ :: (between ++ .replaced s t p :: earlier) := by
    rw [hlog, List.append_assoc, List.cons_append]
  have hset₁ := h.settled hlog₁
  obtain ⟨outer, houter⟩ := hset.standsFor.containers
  obtain ⟨outer₁, houter₁⟩ := hset₁.standsFor.containers
  refine mem_of_append_eq (houter₁.symm.trans (hsame.symm.trans houter)) fun hmem => ?_
  obtain ⟨is, his, -⟩ := hset₁.nearer _ hmem
  exact hset.mentioned rfl (h.next?_eq_none hlog his) hment hmem

/-- An introduced reference is one to the interface of the literal in whose place it stands, and finds it
if nothing hides it. -/
theorem Extracted.introduced (hs' : root.Inside g s') (href : s'.Introduces q ts) :
    ∃ s t p, root.StandsAt f g log s s' ∧ .replaced s t p ∈ log ∧ .ref {} q ts = p.reference s t ∧
      (Unhidden log s p s' → s'.isSettled q = false ∧ ∃ out, root.Beside f g p.container out ∧
        s'.denotes .types q = [⟨.iface p.interface, out⟩]) := by
  obtain ⟨info, hn', hid⟩ := href.here
  cases hs'.origin h with
  | @inPlace s s' n _ hs hbes hn habs hconts =>
    cases hn'
    obtain ⟨later, earlier, t, p, hlog, heq⟩ := hn.introduced hid (hs.original h.numbered rfl)
    cases heq
    refine ⟨s.enter n, t, p, .inPlace hbes, hlog ▸ List.mem_append_cons_self, rfl, ?_⟩
    rintro ⟨huns, hfree, -⟩
    have huns' := isSettled_of_isAbstract huns (habs _)
    obtain ⟨c, hc, hinn⟩ := (h.settled hlog).standsFor.innermost
    exact ⟨huns', h.resolves hlog huns hfree hc (hinn ▸ hconts) huns'⟩
  | @moved s s₁ s' n _ later earlier info' ms p₁ hlog hsp hs hpart hstd hn habs houter hsame
      hconts hif =>
    cases hn'
    obtain ⟨between, earlier', t, p, rfl, heq⟩ := hn.introduced hid (hs.original h.numbered rfl)
    cases heq
    have hlog' : log = later ++ .replaced s₁ (.object info' ms) p₁ :: between ++
        .replaced (s.enter n) t p :: earlier' := by
      rw [hlog, List.append_assoc, List.cons_append]
    refine ⟨s.enter n, t, p, hstd, hlog' ▸ List.mem_append_cons_self, rfl, ?_⟩
    rintro ⟨huns, hfree, hment⟩
    have huns' := isSettled_of_isAbstract huns (habs _)
    have hment := hment _ (.tail _ hif) hsp.unnumbered
    rw [hsp.tparams, hsp.members] at hment
    have hc := h.container_between hlog' (by rw [Scope.containers_enter_part _ hpart, hsame]) hment
    exact ⟨huns', h.resolves hlog' huns hfree hc hconts huns'⟩
  | interface => cases hn'
  | copied horig =>
    cases hn'
    exact absurd hid horig.id_ne_zero
  | under hmem hid' => exact absurd hid' (href.outermost hmem)

end

/-- **Introduced references find their interfaces.** The step does what it does with a record. Every
outermost reference that it introduces stands in the place of a literal, or in an interface that was made
of a literal around that one. Unless something hides the interface, its name is settled nowhere around
the reference, and the only type that it denotes there is the interface in its container. -/
theorem introduced_references_resolve (lib : Library) (pedantic remember : Bool) (stem : String) :
    (Pass.extractInterfaces stem).runAnew (lib.root pedantic) remember lib.file =
        (recordAnew stem (lib.root pedantic) remember lib.file).map (·.1) ∧
      ∀ e log, recordAnew stem (lib.root pedantic) remember lib.file = .ok (e, log) →
        ∀ s' q ts, (lib.root pedantic).Inside e.value s' → s'.Introduces q ts →
          ∃ s t p, (lib.root pedantic).StandsAt lib.numbered e.value log s s' ∧
            .replaced s t p ∈ log ∧ .ref {} q ts = p.reference s t ∧
            (Unhidden log s p s' → s'.isSettled q = false ∧
              ∃ out, (lib.root pedantic).Beside lib.numbered e.value p.container out ∧
                s'.denotes .types q = [⟨.iface p.interface, out⟩]) := by
  have hdeps : (lib.root pedantic).deps.InOrder := Dependencies.inOrder_ofFiles lib.deps
  refine ⟨runAnew_eq_recordAnew hdeps stem remember lib.file, fun e log hrun s' q ts hs' href => ?_⟩
  exact (recordAnew_extracted hdeps stem remember lib.file hrun).introduced hs' href

/-! ### A literal inside another one -/

/-- The scope that is reached by entering the nodes at those places, each in the one before. -/
def Scope.follow (s : Scope) : List Nat → Option Scope
  | [] => some s
  | i :: is => do (s.enter (← (← s.current?).children[i]?)).follow is

theorem Root.Inside.follow {root : Root} {g : File} {s : Scope} (hs : root.Inside g s) {is : List Nat}
    (h : s.follow is = some s') : root.Inside g s' := by
  induction is generalizing s with
  | nil =>
    cases h
    exact hs
  | cons i is ih =>
    obtain ⟨n, hn, h⟩ := Option.bind_eq_some_iff.1 h
    obtain ⟨m, hm, h⟩ := Option.bind_eq_some_iff.1 h
    exact ih (.child hs hn (List.mem_of_getElem? hm)) h

/-- Does the declaration neither import names nor add to those that are global? -/
def Decl.isLocal : Decl → Bool
  | .imports _ | .global _ _ => false
  | _ => true

theorem unobstructed_of_isLocal {log : Record} {p : Placement}
    (h : ((p.inner ++ [p.container]).all fun c => c.members.all Decl.isLocal) = true) :
    Unobstructed log p := by
  have hlocal : ∀ c ∈ p.inner ++ [p.container], ∀ {s d}, c.Shows s d → d.isLocal = true := by
    intro c hc s d hd
    have hmems := List.all_eq_true.1 (List.all_eq_true.1 h c hc)
    cases hd with
    | here hd => exact hmems _ hd
    | block hms => cases hmems _ hms
  refine ⟨fun c hc _ _ hd => ?_, fun c hc _ _ _ _ hd => ?_⟩ <;> cases hlocal c hc hd

def Node.isIntroduced : Node → Bool
  | .ty (.ref info _ _) => info.id == 0
  | _ => false

def Scope.introduced? (s : Scope) : Option QIdent :=
  match s.current? with
  | some (.ty (.ref info q _)) => if info.id = 0 then some q else none
  | _ => none

theorem Scope.introduces_of_introduced? {s : Scope} (h : s.introduced? = some q)
    (htail : s.stack.tail.any Node.isIntroduced = false) : ∃ ts, s.Introduces q ts := by
  unfold introduced? at h
  split at h
  · rename_i info q' ts hn
    split at h
    · cases h
      refine ⟨ts, ⟨info, hn, ‹_›⟩, fun {info' q' ts'} hmem hid => ?_⟩
      exact List.any_eq_false.1 htail _ hmem (beq_iff_eq.2 hid)
    · cases h
  · cases h

/-- Does the node mention the name, if it is an interface that was extracted? -/
def Node.mayMention (q : QIdent) : Node → Bool
  | .decl (.iface i) => !(i.info.id == 0) || (namesMentioned i.tparams i.members).contains q
  | _ => true

theorem Node.mentions_of_mayMention {i : InterfaceDecl} (hi : i.info.id = 0)
    (h : (Node.decl (.iface i)).mayMention q = true) : q ∈ namesMentioned i.tparams i.members := by
  simpa [mayMention, hi] using h

/-- Is the literal replaced where the name is not settled, in containers with local declarations? -/
def Event.isLocal : Event → Bool
  | .replaced s _ p => !s.isSettled [p.interface.name] &&
      (p.inner ++ [p.container]).all fun c => c.members.all Decl.isLocal
  | .emitted _ _ => true

/-- An interface in a namespace, with a literal that has a literal in it. -/
def nestedLiterals : Library where
  name := "lib"
  deps := []
  file :=
    { info := {}
      directives := []
      codePath := .noPath
      members := [.space ⟨{}, true, "N", .noPath, .zero⟩ [.iface ⟨{}, true, "I", [], [],
        [.property ⟨{}, .default, "p", some (.object {} [.property ⟨{}, .default, "q",
          some (.object {} [.property ⟨{}, .default, "a", some (.ref {} ["string"] []), none, false,
            false⟩]), none, false, false⟩]), none, false, false⟩], .noPath⟩]] }

theorem introduced_references_resolve_in_interface :
    ∃ e log s' q ts s p out,
      recordAnew "Anon" (nestedLiterals.root false) false nestedLiterals.file = .ok (e, log) ∧
        (nestedLiterals.root false).Inside e.value s' ∧ s'.Introduces q ts ∧ Unhidden log s p s' ∧
        s'.denotes .types q = [⟨.iface p.interface, out⟩] := by
  -- The inner literal became a reference in the last of the interfaces that the file was given.
  have hrun : ((recordAnew "Anon" (nestedLiterals.root false) false
      nestedLiterals.file).toOption.any fun r => r.2.all Event.isLocal &&
        (((Scope.ofRoot (nestedLiterals.root false)).enter (.file r.1.value)).follow [2, 0, 0]).any
          fun s' => s'.introduced?.any fun q =>
            !s'.stack.tail.any Node.isIntroduced && s'.stack.all (Node.mayMention q)) = true := by
    decide +kernel
  cases h : recordAnew "Anon" (nestedLiterals.root false) false nestedLiterals.file with
  | error e => rw [h] at hrun; cases hrun
  | ok r =>
    obtain ⟨e, log⟩ := r
    rw [h] at hrun
    simp only [Except.toOption, Option.any_some, Bool.and_eq_true, Option.any_eq_true,
      Bool.not_eq_true'] at hrun
    obtain ⟨hlocal, s', hs', q, hq, htail, hmention⟩ := hrun
    have hinside := Root.Inside.file.follow hs'
    obtain ⟨ts, hintroduces⟩ := Scope.introduces_of_introduced? hq htail
    obtain ⟨s, t, p, -, hevent, heq, hresolves⟩ :=
      (introduced_references_resolve nestedLiterals false false "Anon").2 e log h s' q ts hinside
        hintroduces
    cases heq
    have hlocal := List.all_eq_true.1 hlocal _ hevent
    simp only [Event.isLocal, Bool.and_eq_true, Bool.not_eq_true'] at hlocal
    have hunhidden : Unhidden log s p s' :=
      ⟨hlocal.1, unobstructed_of_isLocal hlocal.2, fun i hi hid =>
        Node.mentions_of_mayMention hid (List.all_eq_true.1 hmention _ hi)⟩
    obtain ⟨-, out, -, hdenotes⟩ := hresolves hunhidden
    exact ⟨e, log, s', _, _, s, p, out, rfl, hinside, hintroduces, hunhidden, hdenotes⟩

end Ambient
