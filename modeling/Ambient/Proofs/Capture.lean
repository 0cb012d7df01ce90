import Ambient.Proofs.Declared
import Ambient.Proofs.Extracted

/-!
# What a name finds in the file that a run gives

A name that is declared nowhere among the declarations of a container, that no import lists and that no
global block in it is given, is found among what became of them only if it is that of an interface the
container was given (`findMember_filled`). So the name of an extracted interface finds the interface, if
nothing is in its way (`Extracted.resolves`).
-/

namespace Ambient

/-- The name is free among the declarations `ds` at `s`: none of them has it, no import lists it, and
no global block among them is given an interface of that name. -/
structure Clear (given : Scope → Pending → Prop) (x : Ident) (s : Scope) (ds : List Decl) :
    Prop where
  undeclared : ∀ {s₁ d}, Shown s ds s₁ d → d.localName? ≠ some x
  unlisted : ∀ {s₁ i}, Shown s ds s₁ (.imports i) → x ∉ i.binds
  ungiven : ∀ {s₁ h ms is}, Shown s ds s₁ (.global h ms) →
    given (s₁.enter (.decl (.global h ms))) is → ∀ i ∈ is, i.name ≠ x

variable {d : Decl} {i : InterfaceDecl} {c : Scope}

section
variable {given : Scope → Pending → Prop} {x : Ident}

variable {s : Scope}

theorem Clear.mono {ds es : List Decl} (h : Clear given x s es) (hds : ds ⊆ es) :
    Clear given x s ds where
  undeclared hd := h.undeclared (hd.mono hds)
  unlisted hd := h.unlisted (hd.mono hds)
  ungiven hd := h.ungiven (hd.mono hds)

theorem Clear.block {h : GlobalHead} {ms : List Decl} (hclear : Clear given x s [.global h ms]) :
    Clear given x (s.enter (.decl (.global h ms))) ms where
  undeclared hd := hclear.undeclared (.block (.head _) hd)
  unlisted hd := hclear.unlisted (.block (.head _) hd)
  ungiven hd := hclear.ungiven (.block (.head _) hd)

theorem findInList_append (s : Scope) (ds es : List Decl) :
    findInList x s (ds ++ es) = do
      return (← findInList x s ds) ++ (← findInList x s es) := by
  induction ds with
  | nil => exact (bind_pure (findInList x s es)).symm
  | cons d ds ih => simp [findInList, ih]

theorem findInList_interfaces (s : Scope) (is : Pending) :
    findInList x s (is.map .iface) =
      pure ((is.filter fun i => i.name = x).map fun i => ⟨.iface i, s⟩) := by
  induction is with
  | nil => rfl
  | cons i is ih =>
    have hi : findIn x s (.iface i) =
        pure (if some i.name = some x then [⟨.iface i, s⟩] else []) := rfl
    rw [List.map_cons, findInList, ih, hi]
    by_cases h : i.name = x <;> simp [h]

theorem Decl.Turns.ownName?_eq {d' : Decl} (h : d.Turns given s d') : d'.ownName? = d.ownName? := by
  have hplain : ∀ {d : Decl}, d.isPlain = true → d.ownName? = d.name? := by
    intro d hd
    cases d <;> first | rfl | cases hd
  cases h with
  | plain hd hd' hname => rw [hplain hd, hplain hd', hname]
  | link hd => rfl
  | container hms hd' => cases d <;> cases hd' <;> rfl
  | inline hd => rfl

theorem Decl.Turns.localName?_eq {d' : Decl} (h : d.Turns given s d') :
    d'.localName? = d.localName? := by
  have hplain : ∀ {d : Decl}, d.isPlain = true → d.unwrapExport = d := by
    intro d hd
    cases d <;> first | rfl | cases hd
  have hown := h.ownName?_eq
  cases h with
  | plain hd hd' hname => rwa [localName?, localName?, hplain hd, hplain hd']
  | link hd => rfl
  | container hms hd' => cases d <;> cases hd' <;> exact hown
  | inline hd => exact hd.ownName?_eq

theorem findIn_other (hg : ∀ h ms, d ≠ .global h ms) (hi : ∀ i, d ≠ .imports i)
    (hx : d.localName? ≠ some x) :
    (findIn x s d).Ensures importRealm.asked importRealm.given (· = []) := by
  rw [findIn_eq x s hg hi, if_neg hx]
  exact .done rfl

mutual

theorem findIn_turned {s : Scope} (d : Decl) {d' : Decl} (h : d.Turns given s d')
    (hclear : Clear given x s [d]) (s' : Scope) :
    (findIn x s' d').Ensures importRealm.asked importRealm.given (· = []) := by
  have hx : d'.localName? ≠ some x := h.localName?_eq ▸ hclear.undeclared (.here (.head _))
  cases h with
  | plain _ hplain =>
    refine findIn_other ?_ ?_ hx
    · rintro h ms rfl
      cases hplain
    · rintro i rfl
      cases hplain
  | link hd =>
    cases hd with
    | imports i =>
      rw [findIn]
      refine .bind (.about trivial fun _ h => h) fun bs hbs => .done ?_
      have hx := hclear.unlisted (.here (.head _))
      simp only [bindingsOf, List.map_eq_nil_iff, List.filter_eq_nil_iff, beq_iff_eq]
      exact fun b hb hname => hx (hname ▸ hbs b hb)
    | _ => exact findIn_other nofun nofun hx
  | inline hd => exact findIn_other nofun nofun hx
  | container hms hd' hgiven hall =>
    cases d with
    | global h ms =>
      cases hms
      cases hd'
      rw [findIn, findInList_append, findInList_interfaces]
      refine (findInList_turned _ hall hclear.block _).bind fun fs hfs => .done ?_
      have hnone := hclear.ungiven (.here (.head _)) hgiven
      subst hfs
      simpa using hnone
    | _ => cases hd' <;> exact findIn_other nofun nofun hx

theorem findInList_turned {s : Scope} (ds : List Decl) {ds' : List Decl}
    (h : Decl.TurnsAll given s ds ds') (hclear : Clear given x s ds) (s' : Scope) :
    (findInList x s' ds').Ensures importRealm.asked importRealm.given (· = []) := by
  match ds, h with
  | [], .nil => exact .done rfl
  | d :: ds, .cons hd hds =>
    refine (findIn_turned d hd (hclear.mono (by simp)) s').bind fun fs hfs => ?_
    refine (findInList_turned ds hds (hclear.mono (List.subset_cons_self _ _)) s').bind
      fun gs hgs => ?_
    subst hfs hgs
    exact .done rfl

end

/-- Among what became of the declarations of a container, only the interfaces that it was given have
the name. -/
theorem findMember_filled {c' : Scope} (h : Filled given c c') (hclear : Clear given x c c.members) :
    ∃ is, given c is ∧
      (findMember c' x).Ensures importRealm.asked importRealm.given
        (· = (is.filter fun i => i.name = x).map fun i => ⟨.iface i, c'⟩) := by
  obtain ⟨ds', is, hmems, hgiven, hall⟩ := h
  refine ⟨is, hgiven, ?_⟩
  rw [findMember, hmems, findInList_append, findInList_interfaces]
  refine (findInList_turned c.members hall hclear c').bind fun fs hfs => ?_
  subst hfs
  exact .done rfl

end

/-- **A name finds the first container that has it**, if it is not settled. -/
theorem denotes_first {s : Scope} {x : Ident} (hs : s.isSettled [x] = false) {inner outer : List Scope}
    (hconts : s.containers = inner ++ c :: outer)
    (hinner : ∀ d ∈ inner, (findMember d x).Ensures importRealm.asked importRealm.given (· = []))
    (hc : (findMember c x).Ensures importRealm.asked importRealm.given
      (· = [⟨.iface i, c⟩])) : s.denotes .types [x] = [⟨.iface i, c⟩] := by
  have hnone : ∀ d ∈ inner, (lookupInside .types x [] d).Ensures importRealm.asked importRealm.given
      (· = []) := by
    intro d hd
    refine (hinner d hd).bind fun fs hfs => ?_
    subst hfs
    exact .done rfl
  have hone : (lookupInside .types x [] c).Ensures importRealm.asked importRealm.given
      (· = [⟨.iface i, c⟩]) := by
    refine hc.bind fun fs hfs => ?_
    subst hfs
    exact .done rfl
  have hfirst : (firstNonempty (lookupInside .types x []) (inner ++ c :: outer)).Ensures
      importRealm.asked importRealm.given (· = [⟨.iface i, c⟩]) := by
    clear hconts hinner
    induction inner with
    | nil =>
      refine hone.bind fun fs hfs => ?_
      subst hfs
      exact .done rfl
    | cons d inner ih =>
      refine (hnone d (.head _)).bind fun fs hfs => ?_
      subst hfs
      exact ih fun d hd => hnone d (.tail _ hd)
  have hthr : (lookupThrough .types s x []).Ensures importRealm.asked importRealm.given
      (· = [⟨.iface i, c⟩]) := by
    rw [lookupThrough, show s.outwards.filter Scope.isContainer = _ from hconts]
    refine hfirst.bind fun fs hfs => ?_
    subst hfs
    exact .done rfl
  exact Scope.denotes_of_ensures hs hthr

section
variable {α β : Type} {R : α → β → Prop}

theorem forall₂_split {as bs : List α} {cs : List β} (h : List.Forall₂ R (as ++ bs) cs) :
    ∃ as' bs', cs = as' ++ bs' ∧ List.Forall₂ R as as' ∧ List.Forall₂ R bs bs' := by
  induction as generalizing cs with
  | nil => exact ⟨[], cs, rfl, .nil, h⟩
  | cons a as ih =>
    cases h with
    | cons ha has =>
      obtain ⟨as', bs', rfl, has', hbs'⟩ := ih has
      exact ⟨_ :: as', bs', rfl, .cons ha has', hbs'⟩

end

/-- Nothing but its interface gets in the way of a name: in the containers from the literal to that of
the interface, no import lists the name, and no global block is given an interface of that name. -/
structure Unobstructed (log : Record) (p : Placement) : Prop where
  unlisted : ∀ c ∈ p.inner ++ [p.container], ∀ {s i}, c.Shows s (.imports i) →
    p.interface.name ∉ i.binds
  ungiven : ∀ c ∈ p.inner ++ [p.container], ∀ {s h ms is}, c.Shows s (.global h ms) →
    log.Gives (s.enter (.decl (.global h ms))) is → ∀ i ∈ is, i.name ≠ p.interface.name

theorem InterfaceDecl.Differs.name_ne {j : InterfaceDecl} (h : i.Differs j) : i.name ≠ j.name :=
  fun hname => h (congrArg Text.toLower hname)

theorem filter_name_of_differs {is : Pending} (h : is.Pairwise InterfaceDecl.Differs) (hi : i ∈ is) :
    (is.filter fun j => j.name = i.name) = [i] := by
  induction is with
  | nil => cases hi
  | cons j is ih =>
    rw [List.pairwise_cons] at h
    rcases List.mem_cons.1 hi with rfl | hi
    · rw [List.filter_cons_of_pos (by simp)]
      refine congrArg (i :: ·) (List.filter_eq_nil_iff.2 fun j hj => ?_)
      simpa using (h.1 j hj).name_ne.symm
    · rw [List.filter_cons_of_neg (by simpa using (h.1 i hi).name_ne)]
      exact ih h.2 hi

namespace Extracted

variable {root : Root} {f g : File} {log later earlier : Record} {s : Scope} {t : Ty} {p : Placement}
  (h : Extracted root f g log) (hlog : log = later ++ .replaced s t p :: earlier)
include h hlog

theorem clear (hs : s.isSettled [p.interface.name] = false) (hfree : Unobstructed log p)
    (hc : c ∈ p.inner ++ [p.container]) : Clear log.Gives p.interface.name c c.members := by
  have hset := h.settled hlog
  have hmem := hset.standsFor.mem_containers hc
  exact ⟨fun hd => undeclared_of_meaning hs hset.standsFor.unbound hmem hd,
    hfree.unlisted c hc, hfree.ungiven c hc⟩

omit h hlog in
/-- From a container between a literal and its interface, the containers around are first those up to
that of the interface. -/
theorem containers_between (hstd : StandsFor s t p) (hc : c ∈ p.inner ++ [p.container]) :
    ∃ inner outer, c.containers = inner ++ p.container :: outer ∧ ∀ d ∈ inner, d ∈ p.inner := by
  obtain ⟨outer, houter⟩ := hstd.containers
  obtain ⟨before, after, hsplit⟩ := List.append_of_mem hc
  obtain ⟨inner, last, hlast⟩ : ∃ inner last, c :: after = inner ++ [last] :=
    ⟨_, _, (List.dropLast_append_getLast (List.cons_ne_nil c after)).symm⟩
  rw [hlast, ← List.append_assoc] at hsplit
  obtain ⟨hinner, hcont⟩ := List.append_inj' hsplit rfl
  cases hcont
  refine ⟨inner, outer, ?_, fun d hd => hinner ▸ List.mem_append_right _ hd⟩
  have hconts : s.containers = before ++ c :: (after ++ outer) := by
    rw [houter, hinner, ← List.cons_append, hlast]
    simp
  rw [Scope.containers_of_append hconts, ← List.cons_append, hlast]
  simp

/-- **The name of an extracted interface finds the interface**, from every scope whose containers are in
the place of one from the literal to that of the interface. -/
theorem resolves (hs : s.isSettled [p.interface.name] = false) (hfree : Unobstructed log p)
    (hc : c ∈ p.inner ++ [p.container]) {s' : Scope}
    (hconts : List.Forall₂ (fun d d' => root.Beside f g d d' ∧ Filled log.Gives d d')
      c.containers s'.containers) (hs' : s'.isSettled [p.interface.name] = false) :
    ∃ out, root.Beside f g p.container out ∧
      s'.denotes .types [p.interface.name] = [⟨.iface p.interface, out⟩] := by
  have hset := h.settled hlog
  obtain ⟨inner, outer, hbet, hinner⟩ := containers_between hset.standsFor hc
  rw [hbet] at hconts
  obtain ⟨inner', _, hsplit, hall, hrest⟩ := forall₂_split hconts
  cases hrest with
  | @cons _ out _ outer' hout _ =>
    refine ⟨out, hout.1, denotes_first hs' hsplit (fun d' hd' => ?_) ?_⟩
    · obtain ⟨d, hd, -, hfill⟩ := exists_of_forall₂ hall.flip hd'
      obtain ⟨is, hgiven, hfind⟩ := findMember_filled hfill
        (h.clear hlog hs hfree (List.mem_append_left _ (hinner d hd)))
      obtain ⟨is', hnext, hdifs⟩ := hset.nearer d (hinner d hd)
      obtain rfl := h.given_eq hlog hnext hgiven
      refine hfind.mono (fun _ h => h) fun fs hfs => ?_
      rw [hfs, List.map_eq_nil_iff, List.filter_eq_nil_iff]
      intro i hi
      simpa using (hdifs i hi).name_ne
    · obtain ⟨is, hgiven, hfind⟩ := findMember_filled hout.2
        (h.clear hlog hs hfree (List.mem_append_right _ (.head _)))
      obtain ⟨is', hnext, hmem, hdifs⟩ := hset.given
      obtain rfl := h.given_eq hlog hnext hgiven
      refine hfind.mono (fun _ h => h) fun fs hfs => ?_
      rw [hfs, filter_name_of_differs hdifs hmem]
      rfl

end Extracted

end Ambient
