import Ambient.Proofs.Output

/-!
# The same place in two files
-/

namespace Ambient

/-- The same place in two files of a library, counted from the file by the nodes inside each node. -/
inductive Root.Beside (root : Root) (f g : File) : Scope → Scope → Prop
  | file : Beside root f g ((Scope.ofRoot root).enter (.file f)) ((Scope.ofRoot root).enter (.file g))
  | child {s s' : Scope} {n n' m m' : Node} {i : Nat} (hs : Beside root f g s s')
    (hn : s.current? = some n) (hn' : s'.current? = some n') (hm : n.children[i]? = some m)
    (hm' : n'.children[i]? = some m') : Beside root f g (s.enter m) (s'.enter m')

theorem Scope.members_enter (s : Scope) (n : Node) : (s.enter n).members = n.members?.getD [] := rfl

/-- The container `c'` holds what became of the declarations of `c`, and the interfaces that `c` was
given. -/
def Filled (given : Scope → Pending → Prop) (c c' : Scope) : Prop :=
  ∃ ds' is, c'.members = ds' ++ is.map .iface ∧ given c is ∧ Decl.TurnsAll given c c.members ds'

variable {d d' : Decl} {f : File} {ds : List Decl} {root : Root}

section
variable {given : Scope → Pending → Prop}

theorem Decl.TurnsAll.getElem? {s : Scope} {ds' : List Decl} (h : Decl.TurnsAll given s ds ds')
    {i : Nat} (hd : ds[i]? = some d) : ∃ d', ds'[i]? = some d' ∧ d.Turns given s d' := by
  induction ds generalizing ds' i with
  | nil => cases hd
  | cons e es ih =>
    cases h with
    | cons he hes =>
      cases i with
      | zero =>
        cases hd
        exact ⟨_, rfl, he⟩
      | succ i => exact ih hes hd

theorem Decl.members?_of_withMembers? {ms : List Decl} (h : d.withMembers? ms = some d') :
    d'.members? = some ms := by
  unfold withMembers? at h
  split at h <;> cases h <;> rfl

theorem Decl.members?_of_isPlain (h : d.isPlain = true) : d.members? = none := by
  cases d <;> first | rfl | cases h

theorem Decl.Links.members? (h : d.Links) : d.members? = none := by
  cases h <;> rfl

theorem Decl.Turns.container_of {s : Scope} (h : d.Turns given s d') (hds : d.members? = some ds) :
    ∃ ds' is, d'.members? = some (ds' ++ is.map .iface) ∧
      given (s.enter (.decl d)) is ∧ Decl.TurnsAll given (s.enter (.decl d)) ds ds' := by
  cases h with
  | plain hd => rw [members?_of_isPlain hd] at hds; cases hds
  | link hd => rw [hd.members?] at hds; cases hds
  | inline hd => cases hds
  | @container _ _ _ ms ms' is hms hd' hgiven h =>
    cases hms.symm.trans hds
    exact ⟨ms', is, members?_of_withMembers? hd', hgiven, h⟩

theorem Decl.Turns.members?_eq_none {s : Scope} (h : d.Turns given s d') (hd : d.members? = none) :
    d'.members? = none := by
  cases h with
  | plain _ hd' => exact members?_of_isPlain hd'
  | link _ => exact hd
  | inline _ => rfl
  | container hms => rw [hms] at hd; cases hd

namespace Node.Turns

variable {s : Scope} {n n' : Node}

theorem container (h : n.Turns given s n') (hds : n.members? = some ds) :
    ∃ ds' is, n'.members? = some (ds' ++ is.map .iface) ∧ given (s.enter n) is ∧
      Decl.TurnsAll given (s.enter n) ds ds' := by
  match n, n', h with
  | .file f, .file g, ⟨ds', is, hg, hgiven, hall⟩ =>
    cases hds
    exact ⟨ds', is, congrArg some hg, hgiven, hall⟩
  | .decl d, .decl d', h => exact Decl.Turns.container_of h hds

theorem members?_eq_none (h : n.Turns given s n') (hn : n.members? = none) : n'.members? = none := by
  match n, n', h with
  | .file f, .file g, _ => cases hn
  | .decl d, .decl d', h => exact Decl.Turns.members?_eq_none h hn

theorem isContainer_eq (h : n.Turns given s n') : n'.isContainer = n.isContainer := by
  cases hn : n.members? with
  | none => simp [isContainer, hn, h.members?_eq_none hn]
  | some ds =>
    obtain ⟨ds', is, hn', -⟩ := h.container hn
    simp [isContainer, hn, hn']

theorem child (h : n.Turns given s n') {i : Nat} (hd : n.children[i]? = some (.decl d)) :
    ∃ d', n'.children[i]? = some (.decl d') ∧ d.Turns given (s.enter n) d' := by
  cases hn : n.members? with
  | some ds =>
    obtain ⟨ds', is, hn', -, hall⟩ := h.container hn
    rw [children_of_members? hn, List.getElem?_map] at hd
    obtain ⟨e, he, hed⟩ := Option.map_eq_some_iff.1 hd
    cases hed
    obtain ⟨d', hd', hturns⟩ := hall.getElem? he
    refine ⟨d', ?_, hturns⟩
    rw [children_of_members? hn', List.getElem?_map, List.getElem?_append_left, hd']
    · rfl
    · exact (List.getElem?_eq_some_iff.1 hd').1
  | none =>
    match n, n', h with
    | .file f, .file g, _ => cases hn
    | .decl e, .decl e', h =>
      cases h with
      | plain he => cases isPart_children (n := .decl e) he (List.mem_of_getElem? hd)
      | link he => cases he <;> cases hd
      | container hms => cases hms.symm.trans hn
      | inline h =>
        cases i with
        | succ i => cases hd
        | zero =>
          cases hd
          exact ⟨_, rfl, h⟩

end Node.Turns

end

theorem Node.decl_of_mem_children {n m : Node} (hm : m ∈ n.children) (hpart : m.isPart = false) :
    n.isPart = false ∧ ∃ d, m = .decl d := by
  have hn : ¬ n.isQuiet = true := fun hn => by
    rw [isPart_children hn hm] at hpart
    cases hpart
  refine ⟨Bool.eq_false_iff.2 fun h => hn (isQuiet_of_isPart h), ?_⟩
  cases hds : n.members? with
  | some ds =>
    rw [children_of_members? hds] at hm
    obtain ⟨d, -, rfl⟩ := List.mem_map.1 hm
    exact ⟨d, rfl⟩
  | none =>
    cases n with
    | file f => cases hds
    | decl d =>
      cases d with
      | exports h x =>
        cases x with
        | inline d => exact ⟨d, List.mem_singleton.1 hm⟩
        | names xs m => cases hm
        | star x m => cases hm
      | imports i => cases hm
      | exportAs e => cases hm
      | _ => first | exact absurd rfl hn | cases hds
    | _ => exact absurd rfl hn

theorem Node.Turns.containers {g : File} {given : Scope → Pending → Prop} {s s' : Scope} {n n' : Node}
    (h : n.Turns given s n') (hbes : root.Beside f g (s.enter n) (s'.enter n'))
    (hconts : List.Forall₂ (fun d d' => root.Beside f g d d' ∧ Filled given d d') s.containers
      s'.containers) :
    List.Forall₂ (fun d d' => root.Beside f g d d' ∧ Filled given d d') (s.enter n).containers
      (s'.enter n').containers := by
  rw [Scope.containers_enter s, Scope.containers_enter s', h.isContainer_eq]
  split
  · rename_i hcont
    obtain ⟨ds, hds⟩ := Option.isSome_iff_exists.1 hcont
    obtain ⟨ds', is, hds', hgiven, hall⟩ := h.container hds
    refine .cons ⟨hbes, ds', is, ?_, hgiven, ?_⟩ hconts
    · rw [Scope.members_enter, hds']
      rfl
    · rw [Scope.members_enter, hds]
      exact hall
  · exact hconts

/-- **Every container is found in the same place**, with what became of its declarations. -/
theorem Root.Inside.counterpart {g : File} {given : Scope → Pending → Prop}
    (hfile : (Node.file f).Turns given (.ofRoot root) (.file g)) {c : Scope} (h : root.Inside f c)
    {n : Node} (hn : c.current? = some n) (hpart : n.isPart = false) :
    ∃ s c' n', c = s.enter n ∧ root.Beside f g c c' ∧ c'.current? = some n' ∧ n.Turns given s n' ∧
      List.Forall₂ (fun d d' => root.Beside f g d d' ∧ Filled given d d') c.containers
        c'.containers := by
  induction h generalizing n with
  | file =>
    cases hn
    refine ⟨.ofRoot root, _, .file g, rfl, .file, rfl, hfile, ?_⟩
    refine .cons ⟨.file, ?_⟩ .nil
    obtain ⟨ds', is, hg, hgiven, hall⟩ := hfile
    exact ⟨ds', is, hg, hgiven, hall⟩
  | @child s n₀ m hs hn₀ hm ih =>
    cases hn
    obtain ⟨hn₀part, d, rfl⟩ := Node.decl_of_mem_children hm hpart
    obtain ⟨s₀, s', n₀', rfl, hbes, hn₀', hturns, hconts⟩ := ih hn₀ hn₀part
    obtain ⟨i, hi⟩ := List.getElem?_of_mem hm
    obtain ⟨d', hd', hdturns⟩ := hturns.child hi
    have hnode : (Node.decl d).Turns given (s₀.enter n₀) (.decl d') := hdturns
    have hchild := hbes.child hn₀ hn₀' hi hd'
    exact ⟨s₀.enter n₀, s'.enter (.decl d'), .decl d', rfl, hchild, rfl, hnode,
      hnode.containers hchild hconts⟩

theorem Root.Inside.containers_ne_nil {s : Scope} (h : root.Inside f s) : s.containers ≠ [] := by
  induction h with
  | file =>
    have hcont : (Node.file f).isContainer = true := rfl
    rw [Scope.containers_enter, if_pos hcont]
    exact List.cons_ne_nil _ _
  | @child s n m _ _ _ ih =>
    obtain ⟨c, hc⟩ := List.exists_mem_of_ne_nil _ ih
    exact List.ne_nil_of_mem (Scope.containers_subset_enter s m hc)

end Ambient
