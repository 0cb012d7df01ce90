import Ambient.Proofs.Failures
import Ambient.Proofs.Forwarding

/-!
# Names next to exported variables

Hoisting gives a name to a member only if no declaration of the container has it. A declaration that is
exported where it stands is no declaration of that name in this sense, so its name can be declared once more.

* `hoisting`: what is put into a container, for a notion of which names are taken.
* `hoistExports_declares_once`: names of declarations are never declared again, and names of exported ones
  are not if no member could get one of them (`Root.HoistsApart`).
-/

namespace Ambient

/-! ## Taken names -/

/-- The declaration declares the name, itself or as one that is exported where it stands. -/
inductive Decl.Declares (x : Ident) : Decl → Prop
  | itself {d : Decl} (h : d.name? = some x) : Declares x d
  | exported {head : ExportHead} {d : Decl} (h : d.name? = some x) : Declares x (.exports head (.inline d))

/-- The members of targeted variables are put next to these, if no declaration of the container takes their
name. Nothing else is done. -/
def hoisting (D : Realm) (taken : Ident → Decl → Prop) : Rewriting Scope where
  within := Scope.enter
  decls s ds ds' := InBlocks (Decl.Hoists (VarDecl.MayHave D s) (fun x => ∀ d ∈ ds, ¬ taken x d) s.codePath
    (exportEqualsTargets ds)) ds ds'
  members _ ms ms' := ms' = ms
  ty _ t t' := t' = t

/-- No member of a targeted variable can get a name that is declared next to it only by a declaration that is
exported where it stands. -/
def Root.HoistsApart (root : Root) (f : File) : Prop :=
  ∀ {s n ds v ms m x head d}, root.At f s n → n.members? = some ds → .var v ∈ ds →
    v.name ∈ exportEqualsTargets ds → v.MayHave (root.searches f).realm s ms → m ∈ ms →
    m.hoistedName? = some x → .exports head (.inline d) ∈ ds → d.name? = some x →
    x ∈ ds.filterMap Decl.name?

theorem mem_exportEqualsTargets {x : Ident} {ds : List Decl} : x ∈ exportEqualsTargets ds ↔
    ∃ head, .exports head (.names [([x], none)] none) ∈ ds ∧ head.kind = .namespaced := by
  simp only [exportEqualsTargets, List.mem_filterMap]
  constructor
  · rintro ⟨d, hd, hx⟩
    split at hx
    · split at hx
      · rename_i head y hkind
        cases hx
        exact ⟨head, hd, hkind⟩
      · cases hx
    · cases hx
  · rintro ⟨head, hd, hkind⟩
    exact ⟨_, hd, if_pos hkind⟩

/-! ## Siblings -/

section
variable {D : Realm} {taken : Ident → Decl → Prop} {s : Scope} {n n' : Node}

theorem Node.Rewritten.unhoisted (h : n.Rewritten (hoisting D taken) s n') (hmems : n.members? = none)
    (hinl : n.exportee? = none) : n' = n := by
  induction h with
  | container hds => cases hmems.symm.trans hds
  | @rebuilt s n n₁ n₂ n' hn halike hlen _ hrefit hleft ih =>
    have hparts : n₁.children = n.children := by
      refine List.ext_getElem hlen fun i hi hi' => ?_
      have hpart := Node.isPart_of_exportee? hmems hinl (List.getElem_mem hi')
      refine ih i _ _ (List.getElem?_eq_getElem hi') (List.getElem?_eq_getElem hi) ?_ ?_
      all_goals cases hm : n.children[i] <;> first | rfl | (rw [hm] at hpart; cases hpart)
    obtain rfl := halike.eq hparts
    obtain rfl := hrefit.eq
    cases hleft with
    | ty h => exact congrArg Node.ty h
    | other => rfl

theorem Decl.name?_of_hoisting {d d' : Decl} (h : (Node.decl d).Rewritten (hoisting D taken) s (.decl d')) :
    d'.name? = d.name? := by
  cases hmems : (Node.decl d).members? with
  | some ds =>
    obtain ⟨_, _, _, _, _, hd'⟩ := h.members hmems
    cases d <;> cases hd' <;> rfl
  | none =>
    cases hinl : (Node.decl d).exportee? with
    | none => cases h.unhoisted hmems hinl; rfl
    | some e =>
      unfold Node.exportee? at hinl
      split at hinl
      · rename_i hd
        cases hd
        obtain ⟨e', he', -⟩ := h.exportee
        cases he'
        rfl
      · cases hinl

theorem Node.Rewritten.of_unhoisted (h : n.Rewritten (hoisting D taken) s n') (hmems : n'.members? = none)
    (hinl : n'.exportee? = none) : n' = n := by
  refine h.unhoisted ?_ ?_
  · cases hds : n.members? with
    | none => rfl
    | some ds =>
      obtain ⟨_, _, _, _, _, hn'⟩ := h.members hds
      cases hmems.symm.trans (Node.members?_of_withMembers? hn')
  · unfold Node.exportee?
    split
    · obtain ⟨e', rfl, -⟩ := h.exportee
      cases hinl
    · rfl

end

/-! ## Files -/

section
variable {root : Root} {f : File}

theorem hoistMembers_attempting {D : Realm} {v : VarDecl} {p : CodePath} {ms : List Member} {w} :
    (attempting D fun _ => True).ends w (liftM (hoistMembers v p ms)) fun ds _ =>
      hoistMembers v p ms = .ok ds := by
  cases hms : hoistMembers v p ms with
  | error e => exact attempting_throw trivial
  | ok ds => exact (attempting _ _).pure rfl

/-- The siblings of `ds` are what became of `ds`, and among them a name that a member gets is taken just if one
of them has it. -/
def Root.Takes (root : Root) (f : File) (taken : Ident → Decl → Prop) : Prop :=
  ∀ {s n ds ds'}, root.At f s n → n.members? = some ds → ds'.length = ds.length →
    (∀ (i : Nat) (d d' : Decl), ds[i]? = some d → ds'[i]? = some d' →
      (Node.decl d).Rewritten (hoisting (root.searches f).realm taken) s (.decl d')) →
    ∀ {v ms m x}, .var v ∈ ds' → v.name ∈ exportEqualsTargets ds' →
      v.MayHave (root.searches f).realm s ms → m ∈ ms → m.hoistedName? = some x →
      (x ∉ ds'.filterMap Decl.name? ↔ ∀ d ∈ ds', ¬ taken x d)

theorem Root.takes_name : root.Takes f fun x d => d.name? = some x := by
  intro s n ds ds' _ _ _ _ v ms m x _ _ _ _ _
  simp

theorem Root.HoistsApart.takes (h : root.HoistsApart f) : root.Takes f Decl.Declares := by
  intro s n ds ds' hs hds hlen hparts v ms m x hv htgt hms hm hx
  have horg : ∀ d' ∈ ds', ∃ d ∈ ds,
      (Node.decl d).Rewritten (hoisting (root.searches f).realm Decl.Declares) s (.decl d') :=
    forall_mem_of_getElem? hlen fun i d d' hd hd' =>
      ⟨d, List.mem_of_getElem? hd, hparts i d d' hd hd'⟩
  have hstays : ∀ {d'}, d' ∈ ds' → (Node.decl d').members? = none → (Node.decl d').exportee? = none → d' ∈ ds := by
    intro d' hd' hmems hinl
    obtain ⟨d, hd, hrew⟩ := horg d' hd'
    cases hrew.of_unhoisted hmems hinl
    exact hd
  constructor
  · rintro hfree d' hd' (hname | hname)
    · exact hfree (List.mem_filterMap.2 ⟨_, hd', hname⟩)
    · obtain ⟨e, he, hrew⟩ := horg _ hd'
      obtain ⟨d, hd, hexpd⟩ := hrew.of_exportee
      cases hd
      obtain ⟨head, hlink, hkind⟩ := mem_exportEqualsTargets.1 htgt
      have hmem : x ∈ ds.filterMap Decl.name? :=
        h hs hds (hstays hv rfl rfl) (mem_exportEqualsTargets.2 ⟨head, hstays hlink rfl rfl, hkind⟩) hms hm hx he
          ((Decl.name?_of_hoisting hexpd).symm.trans hname)
      obtain ⟨d₀, hd₀, hx₀⟩ := List.mem_filterMap.1 hmem
      obtain ⟨i, hi⟩ := List.mem_iff_getElem?.1 hd₀
      have hi' : i < ds'.length := hlen ▸ (List.getElem?_eq_some_iff.1 hi).1
      have hname₀ := Decl.name?_of_hoisting (hparts i _ _ hi (List.getElem?_eq_getElem hi'))
      exact hfree (List.mem_filterMap.2 ⟨_, List.getElem_mem hi', hname₀.trans hx₀⟩)
  · intro hfree hmem
    obtain ⟨d, hd, hname⟩ := List.mem_filterMap.1 hmem
    exact hfree d hd (.itself hname)

theorem hoistHooks_acts {taken : Ident → Decl → Prop} (htakes : root.Takes f taken) :
    hoistHooks.Acts (attempting (root.searches f).realm fun _ => True)
      (fun s n => root.Inside f (s.enter n)) (hoisting (root.searches f).realm taken) where
  idle := {}
  within := rfl
  child := Root.Inside.within
  enterFile := (attempting _ _).pure rfl
  enterDecl := (attempting _ _).pure rfl
  leaveDecl := (attempting _ _).pure rfl
  newMembers {w c n ds ds'} _ hs hds hlen hparts := by
    let L := attempting (root.searches f).realm fun _ => True
    have hbl := hoistAll_inBlocks (L := L)
      (fun {_ v} => attempting_of_asking (membersOfVar_asking hs v)) hoistMembers_attempting
      (exportEqualsTargets ds') (ds'.filterMap Decl.name?) ds' (w := w)
    show L.ends w (if (exportEqualsTargets ds').isEmpty then pure none else _) _
    split
    · rename_i hempty
      refine .pure (InBlocks.singletons fun d _ => .other fun v _ hv => ?_)
      rw [List.isEmpty_iff.1 hempty] at hv
      cases hv
    · refine .bind hbl fun e _ _ ⟨he, hsame⟩ => .pure ?_
      rw [Edited.getD_toOption hsame]
      refine he.mono fun hd hblock => ?_
      cases hblock with
      | other h => exact .other h
      | target hv hms h =>
        exact .target hv hms (h.congr fun m hm x d hx =>
          htakes ⟨hs, rfl⟩ hds hlen hparts hd hv hms hm hx.hoistedName?)
  newClassMembers _ _ := (attempting _ _).pure rfl
  leaveTy _ _ := (attempting _ _).pure rfl

end

/-- **Hoisting declares no name of a declaration again.** If it succeeds, each container has its declarations, in
their order and rewritten inside. Each variable that `export =` targets is followed by functions and variables
for the call signatures, methods and properties of its type, which have names that no declaration of the
container has. Nothing else is added or changed. If no member could get the name of a declaration that is
exported where it stands, then no such name is declared again either. -/
theorem hoistExports_declares_once (lib : Library) (pedantic remember : Bool) {e : Edited File}
    (h : Pass.hoisting.runAnew (lib.root pedantic) remember lib.file = .ok e) :
    (Node.file lib.numbered).Rewritten
      (hoisting ((lib.root pedantic).searches lib.numbered).realm fun x d => d.name? = some x)
      (.ofRoot (lib.root pedantic)) (.file e.value) ∧
    ((lib.root pedantic).HoistsApart lib.numbered → (Node.file lib.numbered).Rewritten
      (hoisting ((lib.root pedantic).searches lib.numbered).realm Decl.Declares)
      (.ofRoot (lib.root pedantic)) (.file e.value)) := by
  have hnum := lib.numbered_root pedantic
  have hrewritten : ∀ {taken : Ident → Decl → Prop}, (lib.root pedantic).Takes lib.numbered taken →
      (Node.file lib.numbered).Rewritten (hoisting ((lib.root pedantic).searches lib.numbered).realm taken)
        (.ofRoot (lib.root pedantic)) (.file e.value) := by
    intro taken htakes
    replace h : (hoistExports (.ofRoot (lib.root pedantic)) lib.numbered).run
        { memo := if remember then some {} else none } >>= (fun r => pure r.1) = .ok e := h
    rcases walkFile_rewritten (hoistHooks_acts htakes) lib.numbered .file () _
      (Session.faithful_fresh hnum.searches.apart remember) with ⟨e', σ, he', -, hfile⟩ | ⟨failure, hfail, -⟩
    · rw [hoistExports, he'] at h
      cases h
      exact hfile
    · rw [hoistExports, hfail] at h
      cases h
  exact ⟨hrewritten Root.takes_name, fun hapart => hrewritten hapart.takes⟩

/-- The library `declare const lib: {version: string}; export const version: number; export = lib`. -/
def redeclaring : Library where
  name := "lib"
  file := File.ofMembers "lib"
    [.ofVar "lib" (.ofMembers [.ofType "version" .string]), .ofExportInline (.ofVar "version" .number),
     .ofExportEquals ["lib"]]
  deps := []

/-- The exported `version` is not a declaration of the file, so another one is put next to `lib`. -/
theorem hoistExports_declares_version :
    ∃ e, Pass.hoisting.runAnew (redeclaring.root false) false redeclaring.file = .ok e ∧
      (Node.file redeclaring.numbered).Rewritten
        (hoisting ((redeclaring.root false).searches redeclaring.numbered).realm fun x d => d.name? = some x)
        (.ofRoot (redeclaring.root false)) (.file e.value) ∧
      e.value.members.map Decl.name? = [some "lib", some "version", none, none] := by
  have hrun : ((Pass.hoisting.runAnew (redeclaring.root false) false redeclaring.file).toOption.map fun e =>
      e.value.members.map Decl.name?) = some [some "lib", some "version", none, none] := by
    decide +kernel
  cases he : Pass.hoisting.runAnew (redeclaring.root false) false redeclaring.file with
  | error failure => rw [he] at hrun; cases hrun
  | ok e =>
    rw [he] at hrun
    exact ⟨e, rfl, (hoistExports_declares_once redeclaring false false he).1, Option.some.inj hrun⟩

end Ambient
