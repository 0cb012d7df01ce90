import Ambient.Proofs.Library
import Ambient.Proofs.Placement
import Ambient.Proofs.Walk

/-!
# What a run that extracts interfaces does

The run is walked with hooks that also keep a record (`recordedHooks`): of every literal that is
replaced, with the placement of its interface, and of the interfaces that each container is given. The
walk does what it does without the record (`recordExtraction_spec`).

At each moment of the run, `Recorded` says what is on the record and what waits. A step of the run is
the replacement of a literal or the end of a container, and each keeps `Recorded`
(`Recorded.replace`, `Recorded.emit`). So it holds at the end, when nothing waits any more.
-/

namespace Ambient

/-! ## The record of a run -/

/-- Something that a run does. -/
inductive Event where
  /-- The literal `t` at `s` is replaced by a reference to the interface of the placement. -/
  | replaced (s : Scope) (t : Ty) (p : Placement)
  /-- The container `c` is given the interfaces. -/
  | emitted (c : Scope) (is : Pending)

/-- What a run did, the newest first. -/
abbrev Record := List Event

/-- A computation of a run that also keeps a record. -/
abbrev Recording := StateT Record Extract

instance : LawfulMonad Recording := inferInstanceAs (LawfulMonad (StateT Record Extract))

/-- The hooks that extract interfaces and keep a record. -/
def recordedHooks (stem : String) : Hooks Recording Scope :=
  { Hooks.idle Scope.enter with
    leaveTy := fun s t => do
      match ← placement? stem s t with
      | none => return none
      | some p =>
        modify (.replaced s t p :: ·)
        return some (p.reference s t)
    newMembers := fun s _ ds => do
      let pending ← getThe PendingByScope
      modify (.emitted s (pending.waiting s) :: ·)
      emitInterfaces s ds }

/-- Replaces the anonymous object types of a file by interfaces and keeps a record. -/
def recordExtraction (stem : String) (root : Scope) (f : File) :
    Resolve (Edited File × Record) := do
  return (← ((walkFile (recordedHooks stem) root f).run []).run []).1

/-- What the container with that key is given in an event. -/
def Event.given? (key : ScopeKey) : Event → Option Pending
  | .emitted c is => if c.key = key then some is else none
  | .replaced _ _ _ => none

/-- What the container is given first after some moment, from the record of what came later. -/
def Record.next? (later : Record) (c : Scope) : Option Pending :=
  later.reverse.findSome? (Event.given? c.key)

/-- What the container was given since some moment, or else what waits for it. -/
def Record.gets (later : Record) (pending : PendingByScope) (c : Scope) : Pending :=
  (later.next? c).getD (pending.waiting c)

@[simp] theorem Record.next?_replaced (s : Scope) (t : Ty) (p : Placement) (later : Record)
    (d : Scope) : Record.next? (.replaced s t p :: later) d = Record.next? later d := by
  simp [next?, List.findSome?_append, Event.given?]

theorem Record.next?_emitted (c : Scope) (is : Pending) (later : Record) (d : Scope) :
    Record.next? (.emitted c is :: later) d =
      (Record.next? later d).or (if c.key = d.key then some is else none) := by
  simp [next?, List.findSome?_append, Event.given?]

/-- The interfaces have different names, upper and lower case apart. -/
def InterfaceDecl.Differs (i j : InterfaceDecl) : Prop :=
  Text.toLower i.name ≠ Text.toLower j.name

/-! ## Pending interfaces -/

namespace PendingByScope

variable {pending : PendingByScope} {c d : Scope} {i : InterfaceDecl}

theorem waiting_add_self (h : d.key = c.key) :
    (pending.add c i).waiting d = pending.waiting d ++ [i] := by
  simp [add, waiting, lookup_put, h, Pending.insert]

theorem waiting_add_of_ne (h : d.key ≠ c.key) : (pending.add c i).waiting d = pending.waiting d := by
  simp [add, waiting, lookup_put, h]

theorem mem_waiting_add {j : InterfaceDecl} (h : j ∈ (pending.add c i).waiting d) :
    j ∈ pending.waiting d ∨ d.key = c.key ∧ j = i := by
  by_cases hkey : d.key = c.key
  · rw [waiting_add_self hkey, List.mem_append, List.mem_singleton] at h
    exact h.imp_right (.intro hkey)
  · rw [waiting_add_of_ne hkey] at h
    exact .inl h

theorem differs_of_isTaken {cs : List Scope} (h : pending.isTaken cs i.name = false) (hc : c ∈ cs)
    {j : InterfaceDecl} (hj : j ∈ pending.waiting c) : j.Differs i := by
  simp only [isTaken, Pending.isTaken, List.any_eq_false] at h
  intro hname
  exact h c hc (List.any_eq_true.2 ⟨j, hj, beq_of_eq hname⟩)

/-- The interfaces that wait, those for the container apart. -/
def without (pending : PendingByScope) (c : Scope) : PendingByScope :=
  pending.filter fun e => !(e.1 == c.key)

theorem waiting_without (h : d.key ≠ c.key) : (pending.without c).waiting d = pending.waiting d := by
  suffices hl : (pending.without c).lookup d.key = pending.lookup d.key by rw [waiting, waiting, hl]
  induction pending with
  | nil => rfl
  | cons e pending ih =>
    by_cases he : e.1 = c.key
    · have hne : (d.key == e.1) = false := beq_false_of_ne (he ▸ h)
      rw [without, List.filter_cons_of_neg (by simp [he]), List.lookup_cons, hne]
      exact ih
    · rw [without, List.filter_cons_of_pos (by simpa using he), List.lookup_cons, List.lookup_cons]
      cases d.key == e.1 with
      | true => rfl
      | false => exact ih

theorem waiting_without_self (h : d.key = c.key) : (pending.without c).waiting d = [] := by
  suffices hl : (pending.without c).lookup d.key = none by rw [waiting, hl]; rfl
  refine List.lookup_eq_none_iff.2 fun e he => ?_
  have hne : ¬ e.1 = c.key := by simpa using (List.mem_filter.1 he).2
  rw [h]
  exact bne_iff_ne.2 (Ne.symm hne)

theorem mem_waiting_of_without (h : i ∈ (pending.without c).waiting d) : i ∈ pending.waiting d := by
  by_cases hkey : d.key = c.key
  · rw [waiting_without_self hkey] at h
    cases h
  · rwa [waiting_without hkey] at h

end PendingByScope

/-! ## Containers inside each other -/

namespace Scope

theorem pairwise_outwards (s : Scope) :
    s.outwards.Pairwise fun c d => d.frames.length < c.frames.length := by
  obtain ⟨root, frames⟩ := s
  induction frames with
  | nil => exact List.pairwise_singleton _ _
  | cons f fs ih =>
    refine List.pairwise_cons.2 ⟨fun d (hd : d ∈ (Scope.mk root fs).outwards) => ?_, ih⟩
    exact Nat.lt_succ_of_le (mem_outwards.1 hd).2.length_le

theorem pairwise_containers (s : Scope) :
    s.containers.Pairwise fun c d => d.frames.length < c.frames.length :=
  s.pairwise_outwards.sublist List.filter_sublist

theorem length_key (s : Scope) : s.key.2.length = s.frames.length := List.length_map _

theorem length_le_of_mem_containers {s c : Scope} (h : c ∈ s.containers) :
    c.frames.length ≤ s.frames.length :=
  (mem_outwards.1 (List.mem_of_mem_filter h)).2.length_le

theorem containers_enter (s : Scope) (n : Node) : (s.enter n).containers =
    if n.isContainer = true then s.enter n :: s.containers else s.containers := by
  simp only [containers, outwards_enter, List.filter_cons]
  rfl

theorem containers_subset_enter (s : Scope) (n : Node) : s.containers ⊆ (s.enter n).containers := by
  rw [containers_enter]
  split
  · exact List.subset_cons_self _ _
  · exact List.Subset.refl _

theorem containers_of_append {s c : Scope} {inner outer : List Scope}
    (h : s.containers = inner ++ c :: outer) : c.containers = c :: outer := by
  obtain ⟨root, frames⟩ := s
  induction frames generalizing inner with
  | nil => simp [containers, outwards, outwardsFrom, isContainer, current?] at h
  | cons frame frames ih =>
    have hcons : (Scope.mk root (frame :: frames)).containers =
        if (Scope.mk root (frame :: frames)).isContainer = true
        then ⟨root, frame :: frames⟩ :: (Scope.mk root frames).containers
        else (Scope.mk root frames).containers := List.filter_cons
    rw [hcons] at h
    split at h
    · cases inner with
      | nil =>
        obtain ⟨rfl, rfl⟩ := List.cons.inj h
        rw [hcons, if_pos ‹_›]
      | cons d inner => exact ih (List.cons.inj h).2
    · exact ih h

end Scope

/-! ## What holds of the record -/

/-- The names that the interface for a literal at `s` mentions, its own type parameters apart. -/
def Scope.freeNames (s : Scope) : Ty → List QIdent
  | .object info ms => namesMentioned (s.paramsOf (.object info ms)) ms
  | _ => []

/-- The interface of the placement can take the place of the literal: it says the same, and if it goes
further out than the innermost container, all names in it denote the same there. -/
structure StandsFor (s : Scope) (t : Ty) (p : Placement) : Prop where
  containers : ∃ outer, s.containers = p.inner ++ p.container :: outer
  literal : ∃ info ms, t = .object info ms ∧ (p.interface.members == ms) = true
  sameParams : (p.interface.tparams == s.paramsOf t) = true
  meanings : p.inner ≠ [] → ∀ q ∈ s.freeNames t, SameMeaning s p.container q
  unbound : s.meaning [p.interface.name] = []

theorem StandsFor.mem_containers {s : Scope} {t : Ty} {p : Placement} (h : StandsFor s t p)
    {c : Scope} (hc : c ∈ p.inner ++ [p.container]) : c ∈ s.containers := by
  obtain ⟨outer, houter⟩ := h.containers
  rw [houter, List.append_cons]
  exact List.mem_append_left _ hc

theorem StandsFor.length_lt {s : Scope} {t : Ty} {p : Placement} (h : StandsFor s t p) {d : Scope}
    (hd : d ∈ p.inner) : p.container.frames.length < d.frames.length := by
  obtain ⟨outer, houter⟩ := h.containers
  have hpw := s.pairwise_containers
  rw [houter, List.pairwise_append] at hpw
  exact hpw.2.2 d hd p.container (.head _)

/-- What is kept up, in the scope `s`, of the replacement of the literal `t` at `s₀`. The containers
from the literal to that of the interface are still open or were given what waited for them. The last
of them gets the interface, and the others get none of that name. No interface that mentions the name
goes further out. -/
structure Kept (root : Root) (f : File) (s : Scope) (pending : PendingByScope) (later : Record)
    (s₀ : Scope) (t : Ty) (p : Placement) : Prop where
  inside : root.Inside f s₀
  standsFor : StandsFor s₀ t p
  isOpen : ∀ d ∈ p.inner ++ [p.container], (later.next? d).isSome ∨ d ∈ s.containers
  nested : ∀ d ∈ p.inner, later.next? d = none → later.next? p.container = none
  interface : p.interface ∈ later.gets pending p.container
  apart : (later.gets pending p.container).Pairwise InterfaceDecl.Differs
  nearer : ∀ d ∈ p.inner, ∀ i ∈ later.gets pending d, i.Differs p.interface
  mentioned : ∀ {later' earlier' s₁ t₁ p₁}, later = later' ++ .replaced s₁ t₁ p₁ :: earlier' →
    Record.next? earlier' p.container = none → [p.interface.name] ∈ s₁.freeNames t₁ →
    p.container ∉ p₁.inner

/-- The interface was made of a literal that was replaced, for the container. -/
def Record.Makes (log : Record) (c : Scope) (i : InterfaceDecl) : Prop :=
  ∃ s info ms p, .replaced s (.object info ms) p ∈ log ∧ p.interface = i ∧
    p.container.key = c.key ∧ i.Spells p.container ms (s.paramsOf (.object info ms))

theorem Record.Makes.mono {log log' : Record} {c : Scope} {i : InterfaceDecl} (h : log.Makes c i)
    (hlog : log ⊆ log') : log'.Makes c i :=
  h.imp fun _ h => h.imp fun _ h => h.imp fun _ h => h.imp fun _ h => ⟨hlog h.1, h.2⟩

/-- What is on the record and what waits, in the scope `s`. -/
structure Recorded (root : Root) (f : File) (s : Scope) (log : Record) (pending : PendingByScope)
    (σ : Session) : Prop where
  faithful : σ.Faithful (root.territory f).realm
  keys : ∀ k ∈ pending.map Prod.fst, ∃ c ∈ s.containers, c.key = k
  apart : ∀ c, (pending.waiting c).Pairwise InterfaceDecl.Differs
  waiting : ∀ {c i}, i ∈ pending.waiting c → log.Makes c i
  given : ∀ {c is}, .emitted c is ∈ log → ∀ i ∈ is, log.Makes c i
  replaced : ∀ {later earlier s₀ t p}, log = later ++ .replaced s₀ t p :: earlier →
    Kept root f s pending later s₀ t p

/-! ## A literal is replaced -/

namespace Placed

variable {s : Scope} {ms : List Member} {ps : List TypeParam} {pending pending' : PendingByScope}
  {p : Placement}

theorem waiting_eq (h : Placed s ms ps pending pending' p) (d : Scope) :
    pending'.waiting d = pending.waiting d ∨
      pending'.waiting d = pending.waiting d ++ [p.interface] ∧ d.key = p.container.key ∧
        pending.isTaken s.containers p.interface.name = false := by
  rcases h.waits with ⟨rfl, -⟩ | ⟨rfl, htaken, -⟩
  · exact .inl rfl
  · by_cases hd : d.key = p.container.key
    · exact .inr ⟨PendingByScope.waiting_add_self hd, hd, htaken⟩
    · exact .inl (PendingByScope.waiting_add_of_ne hd)

theorem container_mem (h : Placed s ms ps pending pending' p) : p.container ∈ s.containers := by
  obtain ⟨outer, houter⟩ := h.containers
  rw [houter]
  exact List.mem_append_right _ (.head _)

theorem interface_mem (h : Placed s ms ps pending pending' p) :
    p.interface ∈ pending'.waiting p.container := by
  rcases h.waits with ⟨rfl, hmem⟩ | ⟨rfl, -⟩
  · exact hmem
  · rw [PendingByScope.waiting_add_self rfl]
    exact List.mem_append_right _ (.head _)

theorem apart (h : Placed s ms ps pending pending' p)
    (hapart : ∀ c, (pending.waiting c).Pairwise InterfaceDecl.Differs) (c : Scope) :
    (pending'.waiting c).Pairwise InterfaceDecl.Differs := by
  rcases h.waiting_eq c with hc | ⟨hc, hkey, htaken⟩
  · exact hc ▸ hapart c
  · rw [hc, List.pairwise_append]
    refine ⟨hapart c, List.pairwise_singleton _ _, fun i hi j hj => ?_⟩
    obtain rfl := List.mem_singleton.1 hj
    refine PendingByScope.differs_of_isTaken htaken h.container_mem ?_
    rwa [PendingByScope.waiting, ← hkey]

end Placed

section
variable {root : Root} {f : File} {s : Scope} {pending pending' : PendingByScope} {later : Record}
  {s₀ s₁ : Scope} {t t₁ : Ty} {p p₁ : Placement} {ms : List Member}

/-- A replacement is still kept up when one more literal is replaced: its interface has taken its name
in all containers around. -/
theorem Kept.replace (h : Kept root f s pending later s₀ t p) {info : NodeInfo}
    (ht₁ : t₁ = .object info ms) (hplc : Placed s ms (s.paramsOf t₁) pending pending' p₁)
    (hapart : ∀ c, (pending'.waiting c).Pairwise InterfaceDecl.Differs) :
    Kept root f s pending' (.replaced s t₁ p₁ :: later) s₀ t p := by
  have hwaits : later.next? p.container = none → p.container ∈ s.containers ∧
      p.interface ∈ pending.waiting p.container := by
    intro hnone
    refine ⟨(h.isOpen p.container (by simp)).resolve_left (by simp [hnone]), ?_⟩
    simpa [Record.gets, hnone] using h.interface
  have hgets : ∀ d, Record.gets (.replaced s t₁ p₁ :: later) pending' d = later.gets pending d ∨
      (later.next? d = none ∧ pending.isTaken s.containers p₁.interface.name = false ∧
        Record.gets (.replaced s t₁ p₁ :: later) pending' d =
          later.gets pending d ++ [p₁.interface]) := by
    intro d
    rw [Record.gets, Record.gets, Record.next?_replaced]
    cases later.next? d with
    | some is => exact .inl rfl
    | none => exact (hplc.waiting_eq d).imp_right fun ⟨hd, _, htaken⟩ => ⟨rfl, htaken, hd⟩
  refine ⟨h.inside, h.standsFor, fun d hd => ?_, fun d hd => ?_, ?_, ?_, fun d hd i hi => ?_,
    fun {later' earlier' s₁ t' p'} hlater hnone hment => ?_⟩
  · rw [Record.next?_replaced]
    exact h.isOpen d hd
  · rw [Record.next?_replaced, Record.next?_replaced]
    exact h.nested d hd
  · rcases hgets p.container with he | ⟨-, -, he⟩
    · exact he ▸ h.interface
    · exact he ▸ List.mem_append_left _ h.interface
  · rcases hgets p.container with he | ⟨hnone, -, -⟩
    · exact he ▸ h.apart
    · rw [Record.gets, Record.next?_replaced, hnone]
      exact hapart p.container
  · rcases hgets d with he | ⟨hnone, htaken, he⟩
    · exact h.nearer d hd i (he ▸ hi)
    · rw [he] at hi
      rcases List.mem_append.1 hi with hi | hi
      · exact h.nearer d hd i hi
      · obtain rfl := List.mem_singleton.1 hi
        obtain ⟨hmem, hwaits⟩ := hwaits (h.nested d hd hnone)
        exact (PendingByScope.differs_of_isTaken htaken hmem hwaits).symm
  · rcases List.cons_eq_append_iff.1 hlater with ⟨rfl, hhead⟩ | ⟨later'', rfl, hlater'⟩
    · cases hhead
      subst ht₁
      have htaken := hplc.free _ hment _ rfl
      exact fun hinner => PendingByScope.differs_of_isTaken htaken hinner (hwaits hnone).2 rfl
    · exact h.mentioned hlater' hnone hment

theorem Placed.kept (hplc : Placed s ms (s.paramsOf t) pending pending' p) {info : NodeInfo}
    (ht : t = .object info ms) (hs : root.Inside f s)
    (hapart : ∀ c, (pending'.waiting c).Pairwise InterfaceDecl.Differs) :
    Kept root f s pending' [] s t p := by
  have hstd : StandsFor s t p :=
    { containers := hplc.containers
      literal := ⟨info, ms, ht, hplc.sameMembers⟩
      sameParams := hplc.sameParams
      meanings := by subst ht; exact hplc.meanings
      unbound := hplc.unbound }
  obtain ⟨outer, houter⟩ := hplc.containers
  refine ⟨hs, hstd, fun d hd => .inr ?_, fun d _ _ => rfl, hplc.interface_mem,
    hapart p.container, fun d hd i hi => ?_, fun h => by simp at h⟩
  · rw [houter]
    rcases List.mem_append.1 hd with hd | hd
    · exact List.mem_append_left _ hd
    · exact List.mem_append_right _ (List.mem_singleton.1 hd ▸ (.head _))
  · have hne : d.key ≠ p.container.key := by
      intro hkey
      have hlt := hstd.length_lt hd
      rw [← Scope.length_key, ← Scope.length_key, hkey] at hlt
      exact Nat.lt_irrefl _ hlt
    rcases hplc.waiting_eq d with he | ⟨-, hkey, -⟩
    · exact PendingByScope.differs_of_isTaken hplc.nearer hd (he ▸ hi)
    · exact absurd hkey hne

end

namespace Recorded

variable {root : Root} {f : File} {s : Scope} {log : Record} {pending : PendingByScope} {σ : Session}

theorem mono (h : Recorded root f s log pending σ) {s' : Scope} (hs : s.containers ⊆ s'.containers) :
    Recorded root f s' log pending σ where
  faithful := h.faithful
  keys k hk := (h.keys k hk).imp fun _ hc => ⟨hs hc.1, hc.2⟩
  apart := h.apart
  waiting := h.waiting
  given := h.given
  replaced hlog :=
    let k := h.replaced hlog
    { k with isOpen := fun d hd => (k.isOpen d hd).imp_right fun hd => hs hd }

/-- **The replacement of a literal** goes on the record. -/
theorem replace (h : Recorded root f s log pending σ) {t : Ty} {info : NodeInfo} {ms : List Member}
    (ht : t = .object info ms) {pending' : PendingByScope} {p : Placement}
    (hplc : Placed s ms (s.paramsOf t) pending pending' p) (hs : root.Inside f s) {σ' : Session}
    (hσ' : σ'.Faithful (root.territory f).realm) :
    Recorded root f s (.replaced s t p :: log) pending' σ' := by
  have hapart := hplc.apart h.apart
  have hsub : log ⊆ .replaced s t p :: log := List.subset_cons_self _ _
  refine ⟨hσ', fun k hk => ?_, hapart, fun {c i} hi => ?_, fun {c is} his i hi => ?_,
    fun {later earlier s₀ t₀ p₀} hlog => ?_⟩
  · rcases hplc.waits with ⟨rfl, -⟩ | ⟨rfl, -⟩
    · exact h.keys k hk
    · rw [PendingByScope.add, keys_put] at hk
      split at hk
      · exact h.keys k hk
      · rcases List.mem_append.1 hk with hk | hk
        · exact h.keys k hk
        · exact ⟨p.container, hplc.container_mem, (List.mem_singleton.1 hk).symm⟩
  · rcases hplc.waits with ⟨rfl, -⟩ | ⟨rfl, -, hsp⟩
    · exact (h.waiting hi).mono hsub
    · by_cases hc : c.key = p.container.key
      · rw [PendingByScope.waiting_add_self hc] at hi
        rcases List.mem_append.1 hi with hi | hi
        · exact (h.waiting hi).mono hsub
        · obtain rfl := List.mem_singleton.1 hi
          subst ht
          exact ⟨s, info, ms, p, .head _, rfl, hc.symm, hsp⟩
      · rw [PendingByScope.waiting_add_of_ne hc] at hi
        exact (h.waiting hi).mono hsub
  · have his : .emitted c is ∈ log := (List.mem_cons.1 his).resolve_left nofun
    exact (h.given his i hi).mono hsub
  · rcases List.cons_eq_append_iff.1 hlog with ⟨rfl, hhead⟩ | ⟨later', rfl, hlog'⟩
    · cases hhead
      exact hplc.kept ht hs hapart
    · exact (h.replaced hlog').replace ht hplc hapart

end Recorded

/-! ## A container is given what waits for it -/

section
variable {root : Root} {f : File} {s : Scope} {n : Node} {pending : PendingByScope} {later : Record}
  {s₀ : Scope} {t : Ty} {p : Placement}

theorem Record.gets_emit (later : Record) (pending : PendingByScope) (c d : Scope) :
    Record.gets (.emitted c (pending.waiting c) :: later) (pending.without c) d =
      later.gets pending d := by
  rw [gets, gets, next?_emitted]
  cases later.next? d with
  | some is => rfl
  | none =>
    by_cases hkey : c.key = d.key
    · rw [if_pos hkey, PendingByScope.waiting, PendingByScope.waiting, hkey]
      rfl
    · rw [if_neg hkey]
      exact PendingByScope.waiting_without (Ne.symm hkey)

theorem Kept.emit (h : Kept root f (s.enter n) pending later s₀ t p)
    (hcont : n.isContainer = true) :
    Kept root f s (pending.without (s.enter n))
      (.emitted (s.enter n) (pending.waiting (s.enter n)) :: later) s₀ t p := by
  have hconts : (s.enter n).containers = s.enter n :: s.containers := by
    rw [Scope.containers_enter, if_pos hcont]
  refine ⟨h.inside, h.standsFor, fun d hd => ?_, fun d hd hnone => ?_, ?_, ?_, fun d hd => ?_,
    fun {later' earlier' s₁ t' p'} hlater hnone => ?_⟩
  · rw [Record.next?_emitted]
    rcases h.isOpen d hd with hsome | hmem
    · left
      cases hd : later.next? d with
      | none => simp [hd] at hsome
      | some is => rfl
    · rw [hconts] at hmem
      rcases List.mem_cons.1 hmem with rfl | hmem
      · left
        rw [if_pos rfl]
        cases later.next? (s.enter n) <;> rfl
      · exact .inr hmem
  · rw [Record.next?_emitted, Option.or_eq_none_iff] at hnone ⊢
    refine ⟨h.nested d hd hnone.1, if_neg fun hkey => ?_⟩
    -- A container further in would be longer than the scope that it is around.
    have hlt := h.standsFor.length_lt hd
    have hopen : d ∈ (s.enter n).containers :=
      (h.isOpen d (List.mem_append_left _ hd)).resolve_left (by simp [hnone.1])
    have hle := Scope.length_le_of_mem_containers hopen
    rw [← Scope.length_key (s.enter n), hkey, Scope.length_key] at hle
    omega
  · rw [Record.gets_emit]
    exact h.interface
  · rw [Record.gets_emit]
    exact h.apart
  · rw [Record.gets_emit]
    exact h.nearer d hd
  · rcases List.cons_eq_append_iff.1 hlater with ⟨rfl, hhead⟩ | ⟨later'', rfl, hlater'⟩
    · cases hhead
    · exact h.mentioned hlater' hnone

end

/-- **The end of a container** goes on the record. -/
theorem Recorded.emit {root : Root} {f : File} {s : Scope} {n : Node} {log : Record}
    {pending : PendingByScope} {σ : Session} (h : Recorded root f (s.enter n) log pending σ)
    (hcont : n.isContainer = true) :
    Recorded root f s (.emitted (s.enter n) (pending.waiting (s.enter n)) :: log)
      (pending.without (s.enter n)) σ := by
  have hconts : (s.enter n).containers = s.enter n :: s.containers := by
    rw [Scope.containers_enter, if_pos hcont]
  have hsub : log ⊆ .emitted (s.enter n) (pending.waiting (s.enter n)) :: log :=
    List.subset_cons_self _ _
  refine ⟨h.faithful, fun k hk => ?_, fun c => ?_, fun {c i} hi => ?_, fun {c is} his i hi => ?_,
    fun {later earlier s₀ t p} hlog => ?_⟩
  · obtain ⟨e, he, rfl⟩ := List.mem_map.1 hk
    obtain ⟨he, hne⟩ := List.mem_filter.1 he
    obtain ⟨c, hc, hkey⟩ := h.keys e.1 (List.mem_map_of_mem he)
    rw [hconts] at hc
    rcases List.mem_cons.1 hc with rfl | hc
    · simp [hkey] at hne
    · exact ⟨c, hc, hkey⟩
  · by_cases hc : c.key = (s.enter n).key
    · rw [PendingByScope.waiting_without_self hc]
      exact .nil
    · rw [PendingByScope.waiting_without hc]
      exact h.apart c
  · by_cases hc : c.key = (s.enter n).key
    · rw [PendingByScope.waiting_without_self hc] at hi
      cases hi
    · rw [PendingByScope.waiting_without hc] at hi
      exact (h.waiting hi).mono hsub
  · rcases List.mem_cons.1 his with he | his
    · cases he
      exact (h.waiting hi).mono hsub
    · exact (h.given his i hi).mono hsub
  · rcases List.cons_eq_append_iff.1 hlog with ⟨rfl, hhead⟩ | ⟨later', rfl, hlog'⟩
    · cases hhead
    · exact (h.replaced hlog').emit hcont

/-! ## The whole run -/

/-- The outcome of a recording computation, without its record. -/
def Recording.plain {α : Type} (r : ((α × Record) × PendingByScope) × Session) :
    (α × PendingByScope) × Session :=
  ((r.1.1.1, r.1.2), r.2)

/-- A recording computation does what the plain one does, and from what `I` says of the record and the
state it gets to what `J` says. -/
def recording : Relator Recording Extract (Record → PendingByScope → Session → Prop) where
  rel I J {_} x y := ∀ log pending σ, I log pending σ →
    (((x.run log).run pending).run σ).map Recording.plain = (y.run pending).run σ ∧
      ∀ r, ((x.run log).run pending).run σ = .ok r → J r.1.1.2 r.1.2 r.2
  le I J := ∀ log pending σ, I log pending σ → J log pending σ
  refl _ _ _ _ h := h
  pure _ _ _ _ _ _ h := by
    refine ⟨rfl, fun r hr => ?_⟩
    cases hr
    exact h
  bind {I J K} α β x y f g hx hf log pending σ h := by
    obtain ⟨hplain, hJ⟩ := hx log pending σ h
    simp only [StateT.run_bind, ← hplain]
    cases hr : ((x.run log).run pending).run σ with
    | error e => exact ⟨rfl, fun r hr => nomatch hr⟩
    | ok r => exact hf r.1.1.1 r.1.1.2 r.1.2 r.2 (hJ r hr)
  conseq hI hJ hx log pending σ h := by
    obtain ⟨hplain, hr⟩ := hx log pending σ (hI log pending σ h)
    exact ⟨hplain, fun r he => hJ _ _ _ (hr r he)⟩

theorem leaveTy_run (stem : String) (s : Scope) (t : Ty) (log : Record) (pending : PendingByScope) :
    (((recordedHooks stem).leaveTy s t).run log).run pending =
      (placement? stem s t).run pending >>= fun r => match r.1 with
        | none => pure ((none, log), r.2)
        | some p => pure ((some (p.reference s t), .replaced s t p :: log), r.2) := by
  simp only [recordedHooks, StateT.run_bind, StateT.run_monadLift, monadLift_self, bind_assoc,
    pure_bind]
  refine bind_congr (m := Resolve) fun r => ?_
  cases r.1 <;> rfl

theorem leaveTy_recorded {root : Root} {f : File} (hnum : root.Numbered f) (stem : String)
    {s : Scope} (hs : root.Inside f s) (t : Ty) :
    recording.rel (Recorded root f s) (Recorded root f s) ((recordedHooks stem).leaveTy s t)
      ((interfaceHooks stem).leaveTy s t) := by
  intro log pending σ h
  have hplain : ((interfaceHooks stem).leaveTy s t).run pending =
      (placement? stem s t).run pending >>= fun r =>
        pure (r.1.map (Placement.reference s t), r.2) := rfl
  rw [leaveTy_run, hplain, StateT.run_bind, StateT.run_bind]
  cases hr : ((placement? stem s t).run pending).run σ with
  | error e => exact ⟨rfl, fun r hr => nomatch hr⟩
  | ok r =>
    obtain ⟨⟨placement, pending'⟩, σ'⟩ := r
    obtain ⟨hcases, hσ'⟩ := yields_placement hnum.territory (fun _ _ _ => trivial) stem hs.enters t
      pending σ _ σ' h.faithful hr
    rcases hcases with hnone | ⟨info, ms, p, ht, hp, hplc⟩
    · cases hnone
      refine ⟨rfl, fun r hr => ?_⟩
      cases hr
      exact { h with faithful := hσ' }
    · obtain rfl : placement = some p := hp
      refine ⟨rfl, fun r hr => ?_⟩
      cases hr
      exact h.replace ht hplc hs hσ'

theorem emitInterfaces_run (c : Scope) (ds : List Decl) (pending : PendingByScope) :
    (emitInterfaces c ds).run pending =
      pure ((pending.lookup c.key).map fun is => ds ++ is.map Decl.iface, pending.without c) := by
  simp only [emitInterfaces, StateT.run_bind, StateT.run_get, pure_bind]
  cases hc : pending.lookup c.key with
  | some is => rfl
  | none =>
    have hall : pending.without c = pending := by
      refine List.filter_eq_self.2 fun e he => ?_
      have hne : c.key ≠ e.1 := bne_iff_ne.1 (List.lookup_eq_none_iff.1 hc e he)
      rw [Bool.not_eq_true', beq_eq_false_iff_ne]
      exact hne.symm
    rw [hall]
    rfl

theorem newMembers_run (stem : String) (c : Scope) (owner : Node) (ds : List Decl) (log : Record)
    (pending : PendingByScope) :
    (((recordedHooks stem).newMembers c owner ds).run log).run pending =
      pure (((pending.lookup c.key).map fun is => ds ++ is.map Decl.iface,
        .emitted c (pending.waiting c) :: log), pending.without c) := by
  have hrun : (((recordedHooks stem).newMembers c owner ds).run log).run pending =
      (emitInterfaces c ds).run pending >>= fun r =>
        pure ((r.1, .emitted c (pending.waiting c) :: log), r.2) := rfl
  rw [hrun, emitInterfaces_run, pure_bind]

theorem newMembers_recorded {root : Root} {f : File} (stem : String) {s : Scope} {n : Node}
    (hcont : n.isContainer = true) (owner : Node) (ds : List Decl) :
    recording.rel (Recorded root f (s.enter n)) (Recorded root f s)
      ((recordedHooks stem).newMembers (s.enter n) owner ds)
      ((interfaceHooks stem).newMembers (s.enter n) owner ds) := by
  intro log pending σ h
  have hplain : ((interfaceHooks stem).newMembers (s.enter n) owner ds).run pending =
      (emitInterfaces (s.enter n) ds).run pending := rfl
  rw [newMembers_run, hplain, emitInterfaces_run]
  refine ⟨rfl, fun r hr => ?_⟩
  cases hr
  exact h.emit hcont

theorem hooks_recorded {root : Root} {f : File} (hnum : root.Numbered f) (stem : String) :
    Hooks.Related recording (recordedHooks stem) (interfaceHooks stem) (Recorded root f)
      fun s n => root.Inside f (s.enter n) where
  within := rfl
  child hs hn := .child hs rfl hn
  down {s n} _ _ _ _ h := h.mono (s.containers_subset_enter n)
  up {s n} _ hn _ _ _ h := by
    have hconts : (s.enter n).containers = s.containers := by
      rw [Scope.containers_enter, if_neg (by simp [hn])]
    exact h.mono (hconts ▸ List.Subset.refl _)
  enterFile _ _ := recording.pure _ _
  enterDecl _ _ := recording.pure _ _
  enterMember _ _ := recording.pure _ _
  enterTy _ _ := recording.pure _ _
  enterSig _ _ := recording.pure _ _
  enterParam _ _ := recording.pure _ _
  enterTypeParam _ _ := recording.pure _ _
  enterExpr _ _ _ := recording.pure _ _
  newMembers owner ds _ hn hc := hc ▸ newMembers_recorded stem hn owner ds
  newClassMembers _ _ _ _ := recording.pure _ _
  leaveFile _ _ _ := recording.pure _ _
  leaveDecl _ _ _ := recording.pure _ _
  leaveMember _ _ _ := recording.pure _ _
  leaveTy t' hs hc := hc ▸ leaveTy_recorded hnum stem hs t'
  leaveSig _ _ _ := recording.pure _ _
  leaveParam _ _ _ := recording.pure _ _
  leaveTypeParam _ _ _ := recording.pure _ _
  leaveExpr _ _ _ := recording.pure _ _

/-- What is settled, at the end of a run, about the replacement of the literal `t` at `s`. -/
structure Settled (root : Root) (f : File) (later : Record) (s : Scope) (t : Ty) (p : Placement) :
    Prop where
  inside : root.Inside f s
  standsFor : StandsFor s t p
  given : ∃ is, later.next? p.container = some is ∧ p.interface ∈ is ∧
    is.Pairwise InterfaceDecl.Differs
  nearer : ∀ d ∈ p.inner, ∃ is, later.next? d = some is ∧ ∀ i ∈ is, i.Differs p.interface
  mentioned : ∀ {later' earlier' s₁ t₁ p₁}, later = later' ++ .replaced s₁ t₁ p₁ :: earlier' →
    Record.next? earlier' p.container = none → [p.interface.name] ∈ s₁.freeNames t₁ →
    p.container ∉ p₁.inner

theorem Kept.settled {root : Root} {f : File} {pending : PendingByScope} {later : Record}
    {s₀ : Scope} {t : Ty} {p : Placement}
    (h : Kept root f (.ofRoot root) pending later s₀ t p) :
    Settled root f later s₀ t p := by
  have hnext : ∀ d ∈ p.inner ++ [p.container], ∃ is, later.next? d = some is := by
    intro d hd
    exact Option.isSome_iff_exists.1 ((h.isOpen d hd).resolve_right List.not_mem_nil)
  refine ⟨h.inside, h.standsFor, ?_, fun d hd => ?_, h.mentioned⟩
  · obtain ⟨is, his⟩ := hnext p.container (by simp)
    have hif := h.interface
    have hapart := h.apart
    rw [Record.gets, his] at hif hapart
    exact ⟨is, his, hif, hapart⟩
  · obtain ⟨is, his⟩ := hnext d (List.mem_append_left _ hd)
    have hnear := h.nearer d hd
    rw [Record.gets, his] at hnear
    exact ⟨is, his, hnear⟩

theorem Recorded.start {root : Root} {f : File} {σ : Session} (hσ : σ.Faithful (root.territory f).realm) :
    Recorded root f (.ofRoot root) [] [] σ where
  faithful := hσ
  keys _ hk := absurd hk List.not_mem_nil
  apart _ := .nil
  waiting hi := absurd hi List.not_mem_nil
  given his := absurd his List.not_mem_nil
  replaced hlog := by simp at hlog

/-- **A run with a record** does what the run does without, everything on its record is settled, and
every interface that a container is given was made of a literal. -/
theorem recordExtraction_spec {root : Root} {f : File} (hnum : root.Numbered f) (stem : String)
    {σ : Session} (hσ : σ.Faithful (root.territory f).realm) :
    (extractInterfaces stem (.ofRoot root) f).run σ =
        ((recordExtraction stem (.ofRoot root) f).run σ).map (fun r => (r.1.1, r.2)) ∧
      ∀ file log σ', (recordExtraction stem (.ofRoot root) f).run σ = .ok ((file, log), σ') →
        (∀ later earlier s t p, log = later ++ .replaced s t p :: earlier →
          Settled root f later s t p) ∧
        ∀ c is, .emitted c is ∈ log → ∀ i ∈ is, log.Makes c i := by
  obtain ⟨hplain, hend⟩ := walkFile_related (hooks_recorded hnum stem) .file [] [] σ (Recorded.start hσ)
  simp only [extractInterfaces, recordExtraction, StateT.run_bind, ← hplain]
  cases hr : (((walkFile (recordedHooks stem) (.ofRoot root) f).run []).run []).run σ with
  | error e => exact ⟨rfl, fun _ _ _ h => nomatch h⟩
  | ok r =>
    obtain ⟨⟨⟨file, log⟩, pending⟩, σ'⟩ := r
    refine ⟨rfl, fun _ _ _ h => ?_⟩
    cases h
    exact ⟨fun later earlier s t p hlog => ((hend _ hr).replaced hlog).settled,
      fun c is his => (hend _ hr).given his⟩

end Ambient
