import Ambient.Proofs.Regroup

/-!
# Places describe nesting

After its step has run, the place of every declaration is that of the library, extended by the names of
the containers around the declaration and by its own name. No later step changes that: classes,
functions, hoisted members and extracted interfaces are put where they belong.

* `Decl.Placed p d`: everything in `d` has its place, if `d` stands inside `p`.
* `Decl.Reshaped.placed`: the step that gives places gives everything its place.
* `Decl.Reshaped.placed_still`: every other step keeps everything in its place.
* `compile_places_describe_nesting`: so it is in the file that a run gives.
-/

namespace Ambient

/-! ## Declarations in their places -/

/-- The place of a declaration inside `p`. -/
def Decl.placeIn (p : CodePath) (d : Decl) : CodePath :=
  (d.name?.map p.add).getD p

/-- The declaration stands inside `p`, and it and everything in it has its place. -/
inductive Decl.Placed : CodePath → Decl → Prop
  | mk {p : CodePath} {d : Decl} (here : ∀ q, d.codePath? = some q → q = d.placeIn p)
    (members : ∀ ds, d.members? = some ds → ∀ e ∈ ds, Placed (d.placeIn p) e)
    (exported : ∀ h e, d = .exports h (.inline e) → Placed p e) : Placed p d

variable {f f' : File} {lib : Ident} {ds : List Decl} {o : Options} {step : Pass}

variable {d' : Decl} {h : ExportHead} {ds' : List Decl} {path : QIdent} {root : Root}

namespace Decl.Placed

variable {p : CodePath} {d : Decl}

theorem here (h : d.Placed p) {q : CodePath} (hq : d.codePath? = some q) : q = d.placeIn p := by
  obtain ⟨hhere, -, -⟩ := h
  exact hhere q hq

theorem member (h : d.Placed p) (hds : d.members? = some ds) : ∀ e ∈ ds, e.Placed (d.placeIn p) := by
  obtain ⟨-, hmems, -⟩ := h
  exact hmems ds hds

theorem exported {e : Decl} (hd : (Decl.exports h (.inline e)).Placed p) : e.Placed p := by
  obtain ⟨-, -, hexpt⟩ := hd
  exact hexpt h e rfl

theorem plain (hd : d.isPlain = true) (h : d.codePath? = some (d.placeIn p)) : d.Placed p := by
  refine .mk (fun q hq => Option.some.inj (hq.symm.trans h)) (fun ds hds => ?_) ?_
  · rw [not_isPlain_of_members? hds] at hd
    cases hd
  · rintro h e rfl
    cases hd

theorem container (hds : d.members? = some ds) (h : d.codePath? = some (d.placeIn p))
    (hmems : ∀ e ∈ ds, e.Placed (d.placeIn p)) : d.Placed p := by
  refine .mk (fun q hq => Option.some.inj (hq.symm.trans h)) (fun ds' hds' => ?_) ?_
  · cases hds.symm.trans hds'
    exact hmems
  · rintro h e rfl
    cases hds

theorem link (hd : d.Links) : d.Placed p := by
  cases hd <;> exact .mk nofun nofun nofun

theorem inline (hd : d.Placed p) : (Decl.exports h (.inline d)).Placed p := by
  refine .mk nofun nofun fun h' e he => ?_
  cases he
  exact hd

end Decl.Placed

/-- Everything in the file of the library has its place. -/
structure File.Placed (lib : Ident) (f : File) : Prop where
  here : f.codePath = .root lib
  members : ∀ d ∈ f.members, d.Placed (.root lib)

/-! ## Giving places -/

theorem Decl.placeIn_of_name {p : CodePath} {d : Decl} (h : d'.name? = d.name?) :
    d'.placeIn p = d.placeIn p := by
  rw [placeIn, placeIn, h]

theorem Decl.codePath?_isSome_of_isPlain {d : Decl} (h : d.isPlain = true) :
    ∃ q, d.codePath? = some q := by
  cases d <;> cases h <;> exact ⟨_, rfl⟩

theorem Decl.codePath?_isSome_of_members? {d : Decl} (h : d.members? = some ds) :
    ∃ q, d.codePath? = some q := by
  cases d <;> cases h <;> exact ⟨_, rfl⟩

theorem Shape.Keeps.here {p : CodePath} {d : Decl} (h : (Shape.placing lib).Keeps p d d')
    (hd : ∃ q, d.codePath? = some q) : d'.codePath? = some (d'.placeIn p) := by
  obtain ⟨q, hq⟩ := hd
  rw [h.place, hq, Decl.placeIn_of_name h.name]
  rfl

mutual

theorem Decl.Reshaped.placed {lib : Ident} {p : CodePath} {d d' : Decl} :
    d.Reshaped (.placing lib) p d' → d'.Placed p
  | .plain hd h => .plain (isPlain_of_kind h.kind hd) (h.here (codePath?_isSome_of_isPlain hd))
  | .link hd h => .link (hd.of_contents h)
  | .container hms hms' h hall hreg => by
    have hplc := hall.placed
    obtain rfl := hreg
    refine .container hms' (h.here (codePath?_isSome_of_members? hms)) ?_
    rw [placeIn_of_name h.name]
    exact hplc
  | .inline _ hd => .inline hd.placed

theorem Decl.ReshapedAll.placed {lib : Ident} {p : CodePath} {ds ds' : List Decl} :
    Decl.ReshapedAll (.placing lib) p ds ds' → ∀ d ∈ ds', d.Placed p
  | .nil => nofun
  | .cons hd hds => List.forall_mem_cons.2 ⟨hd.placed, hds.placed⟩

end

/-! ## Keeping places -/

theorem CodePath.isSet_add {p : CodePath} (h : p.isSet = true) (x : Ident) : (p.add x).isSet = true := by
  cases p with
  | noPath => cases h
  | hasPath lib path => rfl

theorem CodePath.renameLast_add (p : CodePath) (x y : Ident) : (p.add x).renameLast y = p.add y := by
  cases p with
  | noPath => rfl
  | hasPath lib path => simp [add, renameLast, QIdent.add]

theorem Decl.isSet_placeIn {p : CodePath} (h : p.isSet = true) (d : Decl) : (d.placeIn p).isSet = true := by
  rw [placeIn]
  cases d.name? with
  | none => exact h
  | some x => exact CodePath.isSet_add h x

theorem Decl.Placed.inside {p : CodePath} {d : Decl} (h : d.Placed p) (hp : p.isSet = true) :
    p.inside (.decl d) = d.placeIn p := by
  have hset := d.isSet_placeIn hp
  rw [CodePath.inside, Node.codePath?]
  cases hq : d.codePath? with
  | some q =>
    obtain rfl := h.here hq
    rw [Option.filter_some, if_pos hset, Option.getD_some]
  | none =>
    have hname : d.name? = none := by cases d <;> first | rfl | cases hq
    simp [placeIn, hname]

theorem VarDecl.MadeClass.placed {suffix : String} {v : VarDecl} {c : ClassDecl}
    (h : v.MadeClass suffix c) {p : CodePath} (hv : (Decl.var v).Placed p) : (Decl.cls c).Placed p := by
  have hplace : v.codePath = p.add v.name := hv.here rfl
  refine .plain rfl (congrArg some ?_)
  show c.codePath = p.add c.name
  rcases h with ⟨hname, hcode⟩ | ⟨-, hcode⟩
  · rw [hcode, hname, hplace]
  · rw [hcode, hplace, CodePath.renameLast_add]

theorem Decl.Yields.placed {p : CodePath} {d : Decl} (h : d.Yields p step ds) (hd : d.Placed p) :
    ∀ e ∈ ds, e.Placed p := by
  cases h with
  | same => exact List.forall_mem_singleton.2 hd
  | stripped f => exact List.forall_mem_singleton.2 (.plain rfl (congrArg some (hd.here rfl)))
  | @functions v fs _ hfs =>
    have hplace : v.codePath = p.add v.name := hd.here rfl
    refine List.forall_mem_map.2 fun f hf => .plain rfl (congrArg some ?_)
    obtain ⟨hname, hcode⟩ := hfs f hf
    show f.codePath = p.add f.name
    rw [hcode, hname, hplace]
  | cls hc => exact List.forall_mem_singleton.2 (hc.placed hd)
  | exportedCls h hc => exact List.forall_mem_singleton.2 (.inline (hc.placed hd.exported))
  | hoisted v hds =>
    refine List.forall_mem_cons.2 ⟨hd, fun e he => ?_⟩
    cases hds e he with
    | function f hf => exact .plain rfl (congrArg some hf)
    | var v hv => exact .plain rfl (congrArg some hv)

theorem Decl.YieldsAll.placed {p : CodePath} (h : Decl.YieldsAll p step ds ds')
    (hds : ∀ d ∈ ds, d.Placed p) : ∀ d ∈ ds', d.Placed p := by
  induction h with
  | nil => exact nofun
  | cons hd _ ih =>
    obtain ⟨hd', hds'⟩ := List.forall_mem_cons.1 hds
    exact List.forall_mem_append.2 ⟨hd.placed hd', ih hds'⟩

theorem Decl.Regrouped.placed {p : CodePath} (h : Decl.Regrouped p step ds ds')
    (hds : ∀ d ∈ ds, d.Placed p) : ∀ d ∈ ds', d.Placed p := by
  cases h with
  | replaced h => exact h.placed hds
  | extended _ his =>
    refine List.forall_mem_append.2 ⟨hds, List.forall_mem_map.2 fun i hi => ?_⟩
    exact .plain rfl (congrArg some (his i hi))

mutual

theorem Decl.Reshaped.placed_still {step : Pass} {p : CodePath} {d d' : Decl} (hp : p.isSet = true) :
    d.Reshaped (.still step) p d' → d.Placed p → d'.Placed p
  | .plain hd h, hplc => by
    obtain ⟨q, hq⟩ := codePath?_isSome_of_isPlain hd
    refine .plain (isPlain_of_kind h.kind hd) ?_
    rw [h.place, hq, placeIn_of_name h.name, ← hplc.here hq]
    rfl
  | .link hd h, _ => .link (hd.of_contents h)
  | .container hms hms' h hall hreg, hplc => by
    obtain ⟨q, hq⟩ := codePath?_isSome_of_members? hms
    have hin : (Shape.still step).within p (.decl d) = d.placeIn p := hplc.inside hp
    have hset := d.isSet_placeIn hp
    have hall' := hall.placed_still (hin ▸ hset) (hin ▸ hplc.member hms)
    refine .container hms' ?_ ?_
    · rw [h.place, hq, placeIn_of_name h.name, ← hplc.here hq]
      rfl
    · rw [placeIn_of_name h.name, ← hin]
      exact Decl.Regrouped.placed hreg hall'
  | .inline _ hd, hplc => .inline (hd.placed_still hp hplc.exported)

theorem Decl.ReshapedAll.placed_still {step : Pass} {p : CodePath} {ds ds' : List Decl}
    (hp : p.isSet = true) : Decl.ReshapedAll (.still step) p ds ds' → (∀ d ∈ ds, d.Placed p) →
      ∀ d ∈ ds', d.Placed p
  | .nil, _ => nofun
  | .cons hd hds, h => List.forall_mem_cons.2
    ⟨hd.placed_still hp (h _ (.head _)), hds.placed_still hp fun d hd => h d (.tail _ hd)⟩

end

/-! ## Files -/

theorem File.Reshaped.placed (h : f.Reshaped (.placing lib) .noPath f') : f'.Placed lib := by
  obtain ⟨hplace, ms, hms, hreg⟩ := h
  refine ⟨hplace, ?_⟩
  rw [show f'.members = ms from hreg]
  exact hms.placed

theorem File.Reshaped.placed_still (h : f.Reshaped (.still step) .noPath f') (hf : f.Placed lib) :
    f'.Placed lib := by
  obtain ⟨hplace, ms, hms, hreg⟩ := h
  have hin : (Shape.still step).within .noPath (.file f) = .root lib := by
    show CodePath.inside .noPath (.file f) = .root lib
    rw [CodePath.inside, Node.codePath?, hf.here]
    rfl
  rw [hin] at hms hreg
  exact ⟨hplace.trans hf.here, Decl.Regrouped.placed hreg (hms.placed_still rfl hf.members)⟩

/-- **Every step keeps everything in its place.** -/
theorem Pass.runAnew_placed (hdeps : root.deps.InOrder) {p : PassName} {remember : Bool}
    {e : Edited File} (hf : f.Placed root.lib)
    (h : (Pass.ofOptions o root.lib p).runAnew root remember f = .ok e) : e.value.Placed root.lib := by
  have hrun := Pass.runAnew_reshapes hdeps h
  have hnum := (f.reshaped_number (Pass.ofOptions o root.lib p) root.deps.nextId).placed_still hf
  cases p with
  | setCodePath => exact hrun.placed
  | _ => exact hrun.placed_still hnum

theorem runPasses_placed (hdeps : root.deps.InOrder) {ps : List PassName} {changed : List PassName}
    (hf : f.Placed root.lib) (h : runPasses o root ps f = .ok (f', changed)) : f'.Placed root.lib := by
  induction ps generalizing f changed with
  | nil =>
    cases h
    exact hf
  | cons p ps ih =>
    obtain ⟨e, rest, he, hrest⟩ := runPasses_cons_ok h
    exact ih (Pass.runAnew_placed hdeps hf he) hrest

theorem Options.passes_eq_cons (h : o.isEnabled .setCodePath = true) :
    ∃ ps, o.passes = .setCodePath :: ps := by
  rw [passes, PassName.order, List.filter_cons_of_pos (by simp [h])]
  exact ⟨_, rfl⟩

/-- If declarations are given places, everything in the file that a run gives has its place. -/
theorem compile_placed {lib : Library} {out : Compiled} (hpls : o.isEnabled .setCodePath = true)
    (h : compile o lib = .ok out) : out.file.Placed lib.name := by
  have hdeps : (lib.root o.pedantic).deps.InOrder := Dependencies.inOrder_ofFiles lib.deps
  obtain ⟨changed, hrun⟩ := compile_ok h
  obtain ⟨ps, hps⟩ := Options.passes_eq_cons hpls
  rw [hps] at hrun
  obtain ⟨e, rest, he, hrest⟩ := runPasses_cons_ok hrun
  have hfirst : e.value.Placed lib.name := (Pass.runAnew_reshapes hdeps he).placed
  exact runPasses_placed hdeps hfirst hrest

/-! ## Reading places off -/

/-- The declaration stands in the file inside containers of these names, outermost first. A container
without a name adds none, and what is exported inline stands where the export does. -/
inductive File.Nests (f : File) : QIdent → Decl → Prop
  | top {d : Decl} (hd : d ∈ f.members) : Nests f [] d
  | inside {path : QIdent} {c d : Decl} {ds : List Decl} (hc : Nests f path c)
    (hds : c.members? = some ds) (hd : d ∈ ds) : Nests f (path ++ c.name?.toList) d
  | exported {path : QIdent} {h : ExportHead} {d : Decl}
    (hd : Nests f path (.exports h (.inline d))) : Nests f path d

theorem Decl.placeIn_hasPath (lib : Ident) (path : QIdent) (d : Decl) :
    d.placeIn (.hasPath lib path) = .hasPath lib (path ++ d.name?.toList) := by
  rw [placeIn]
  cases d.name? with
  | none => simp
  | some x => rfl

theorem File.Placed.nests (h : f.Placed lib) {d : Decl} (hd : f.Nests path d) :
    d.Placed (.hasPath lib path) := by
  induction hd with
  | top hd => exact h.members _ hd
  | inside _ hds hd ih =>
    rw [← Decl.placeIn_hasPath]
    exact ih.member hds _ hd
  | exported _ ih => exact ih.exported

theorem File.Nests.unwrapExport {d : Decl} (hd : f.Nests path d) : f.Nests path d.unwrapExport := by
  unfold Decl.unwrapExport
  split
  · exact hd.exported
  · exact hd

/-- **Places describe nesting.** If declarations are given places, every place in the file that a run
gives is that of the library, extended by the names of the containers around and by the name of the
declaration itself. -/
theorem compile_places_describe_nesting (o : Options) (lib : Library)
    (hplaces : o.isEnabled .setCodePath = true) (out : Compiled) (h : compile o lib = .ok out) :
    out.file.codePath = .root lib.name ∧
      ∀ path d p, out.file.Nests path d → d.codePath? = some p →
        p = .hasPath lib.name (path ++ d.name?.toList) := by
  have hplaced := compile_placed hplaces h
  refine ⟨hplaced.here, fun path d p hd hp => ?_⟩
  rw [(hplaced.nests hd).here hp, Decl.placeIn_hasPath]

/-- A namespace that exports a value with a construct signature, next to an interface of its name. -/
def exportedValue : Library where
  name := "lib"
  deps := []
  file :=
    { info := {}
      directives := []
      codePath := .noPath
      members := [.space ⟨{}, true, "N", .noPath, .zero⟩
        [.exports ⟨{}, false, .named⟩ (.inline (.var ⟨{}, true, true, "C",
          some (.constructor 0 false ⟨{}, [], [], some (.object {} [.property ⟨{}, .default, "a",
            some (.ref {} ["string"] []), none, false, false⟩])⟩), none, .zero, .noPath⟩)),
         .iface ⟨{}, true, "C", [], [], [], .noPath⟩]] }

/-- The class for the value gets a backup name, and its place goes with it. -/
theorem compile_places_exported_class :
    ∃ out d, compile {} exportedValue = .ok out ∧ out.file.Nests ["N"] d ∧ d.name? = some "CCls" ∧
      d.codePath? = some (.hasPath "lib" ["N", "CCls"]) := by
  -- The export is the first member of the first container.
  have hrun : ((compile {} exportedValue).toOption.any fun out =>
      out.file.members.head?.any fun c => c.name? == some "N" &&
        c.members?.any fun ds => ds.head?.any fun e =>
          e.unwrapExport.name? == some "CCls" && e.unwrapExport.codePath?.isSome) = true := by
    decide +kernel
  cases h : compile {} exportedValue with
  | error e => rw [h] at hrun; cases hrun
  | ok out =>
    rw [h, Except.toOption, Option.any_some] at hrun
    simp only [Option.any_eq_true, Bool.and_eq_true, beq_iff_eq] at hrun
    obtain ⟨c, hc, hN, ds, hds, e, he, hname, hsome⟩ := hrun
    obtain ⟨p, hp⟩ := Option.isSome_iff_exists.1 hsome
    have hnests : out.file.Nests ["N"] e := by
      have hinside := File.Nests.inside (.top (List.mem_of_head? hc)) hds (List.mem_of_head? he)
      rwa [hN] at hinside
    have hplace := (compile_places_describe_nesting {} exportedValue (by decide) out h).2 _ _ p
      hnests.unwrapExport hp
    rw [hname] at hplace
    exact ⟨out, e.unwrapExport, rfl, hnests.unwrapExport, hname, hplace ▸ hp⟩

end Ambient
