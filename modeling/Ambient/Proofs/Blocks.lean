import Ambient.Proofs.Regroup

/-!
# No declaration is lost or reordered

The members of a container of the result are blocks, one for each member of the given container and in
the same order, followed by the interfaces that were extracted. What may stand in the block of a member is
said by `Decl.Gives`, for all containers at any depth.

* `Decl.Splits.trans`: what steps do in turn is what one could have done.
* `Pass.runAnew_extended`: what one step does.
* `compile_keeps_declarations`: what a run does.
-/

namespace Ambient

/-! ## Blocks -/

def Decl.isHoistable : Decl → Bool
  | .function _ | .var _ => true
  | _ => false

mutual

/-- The declaration became a single one, of its kind and name, when the steps `ran`. -/
inductive Decl.Corresponds (ran : PassName → Prop) (suffix : String) : Decl → Decl → Prop
  | plain {d d' : Decl} (hd : d.isPlain = true) (hkind : d'.kind = d.kind) (hname : d'.name? = d.name?) :
    Corresponds ran suffix d d'
  | link {d d' : Decl} (hd : d.Links) (h : d'.contents = d.contents) : Corresponds ran suffix d d'
  | container {d d' : Decl} {ms ms' : List Decl} {is : List InterfaceDecl} (hms : d.members? = some ms)
    (hms' : d'.members? = some (ms' ++ is.map .iface)) (hkind : d'.kind = d.kind)
    (hname : d'.name? = d.name?) (h : Decl.Splits ran suffix ms ms')
    (his : is ≠ [] → ran .extractInterfaces) : Corresponds ran suffix d d'
  | inline {h h' : ExportHead} {d d' : Decl} (hh : h'.contents = h.contents)
    (hd : Corresponds ran suffix d d') :
    Corresponds ran suffix (.exports h (.inline d)) (.exports h' (.inline d'))

/-- The block that a member became when the steps `ran`. -/
inductive Decl.Gives (ran : PassName → Prop) (suffix : String) : Decl → List Decl → Prop
  | one {d d' : Decl} (h : Decl.Corresponds ran suffix d d') : Gives ran suffix d [d']
  | cls {v : VarDecl} {c : ClassDecl} (hran : ran .extractClasses)
    (hname : c.name = v.name ∨ c.name = v.name ++ suffix) : Gives ran suffix (.var v) [.cls c]
  | exportedCls {h h' : ExportHead} {v : VarDecl} {c : ClassDecl} (hran : ran .extractClasses)
    (hh : h'.contents = h.contents) (hname : c.name = v.name ∨ c.name = v.name ++ suffix) :
    Gives ran suffix (.exports h (.inline (.var v))) [.exports h' (.inline (.cls c))]
  | functions {v : VarDecl} {fs : List FunctionDecl} (hran : ran .normalizeFunctions) (hne : fs ≠ [])
    (hname : ∀ f ∈ fs, f.name = v.name) : Gives ran suffix (.var v) (fs.map .function)
  | hoisted {v v' : VarDecl} {ds : List Decl} (hran : ran .hoisting) (hname : v'.name = v.name)
    (hds : ∀ d ∈ ds, d.isHoistable = true) : Gives ran suffix (.var v) (.var v' :: ds)

/-- The blocks that the members of a list became, one after the other. -/
inductive Decl.Splits (ran : PassName → Prop) (suffix : String) : List Decl → List Decl → Prop
  | nil : Splits ran suffix [] []
  | cons {d : Decl} {ds ds' block : List Decl} (hd : Decl.Gives ran suffix d block)
    (hds : Splits ran suffix ds ds') : Splits ran suffix (d :: ds) (block ++ ds')

end

/-- The members of a container became blocks, and interfaces follow if they were extracted. -/
def Decl.Extended (ran : PassName → Prop) (suffix : String) (ds ds' : List Decl) : Prop :=
  ∃ ms, ∃ is : List InterfaceDecl, Decl.Splits ran suffix ds ms ∧ ds' = ms ++ is.map .iface ∧
    (is ≠ [] → ran .extractInterfaces)

variable {f' : File} {is : List InterfaceDecl} {o : Options} {root : Root}

section
variable {ran : PassName → Prop} {suffix : String} {d d' : Decl} {ds ds' : List Decl}

theorem Decl.Corresponds.of_extended (hds : d.members? = some ds) (hds' : d'.members? = some ds')
    (hkind : d'.kind = d.kind) (hname : d'.name? = d.name?) (h : Decl.Extended ran suffix ds ds') :
    d.Corresponds ran suffix d' := by
  obtain ⟨ms, is, hspl, rfl, his⟩ := h
  exact .container hds hds' hkind hname hspl his

theorem Decl.Gives.ne_nil (h : d.Gives ran suffix ds) : ds ≠ [] := by
  cases h with
  | functions _ hne _ => simpa using hne
  | _ => exact List.cons_ne_nil _ _

theorem Decl.Splits.blocks (h : Decl.Splits ran suffix ds ds') :
    ∃ blocks, List.Forall₂ (Decl.Gives ran suffix) ds blocks ∧ (∀ b ∈ blocks, b ≠ []) ∧
      ds' = blocks.flatten := by
  induction ds generalizing ds' with
  | nil =>
    cases h
    exact ⟨[], .nil, nofun, rfl⟩
  | cons d ds ih =>
    cases h with
    | cons hd hds =>
      obtain ⟨blocks, hbl, hne, rfl⟩ := ih hds
      exact ⟨_ :: blocks, .cons hd hbl, List.forall_mem_cons.2 ⟨hd.ne_nil, hne⟩, rfl⟩

theorem Decl.Splits.single (h : Decl.Splits ran suffix [d] ds) : d.Gives ran suffix ds := by
  cases h with
  | cons hd hds =>
    cases hds
    rwa [List.append_nil]

theorem Decl.Splits.of_append {es zs : List Decl} (h : Decl.Splits ran suffix (ds ++ es) zs) :
    ∃ xs ys, zs = xs ++ ys ∧ Decl.Splits ran suffix ds xs ∧ Decl.Splits ran suffix es ys := by
  induction ds generalizing zs with
  | nil => exact ⟨[], zs, rfl, .nil, h⟩
  | cons d ds ih =>
    cases h with
    | cons hd hds =>
      obtain ⟨xs, ys, rfl, hxs, hys⟩ := ih hds
      exact ⟨_ ++ xs, ys, (List.append_assoc _ _ _).symm, .cons hd hxs, hys⟩

/-! ## What a declaration can have become, by its kind -/

namespace Decl.Corresponds

theorem head_eq (h : d.Corresponds ran suffix d') : d'.kind = d.kind ∧ d'.name? = d.name? := by
  cases h with
  | plain _ hkind hname => exact ⟨hkind, hname⟩
  | link hd h => cases hd <;> cases d' <;> first | exact ⟨rfl, rfl⟩ | cases h
  | container _ _ hkind hname _ _ => exact ⟨hkind, hname⟩
  | inline _ _ => exact ⟨rfl, rfl⟩

theorem of_links (hd : d.Links) (h : d.Corresponds ran suffix d') : d'.contents = d.contents := by
  cases h with
  | plain hplain _ _ =>
    rw [hd.not_isPlain] at hplain
    cases hplain
  | link _ h => exact h
  | container hms _ _ _ _ _ => cases hd <;> cases hms
  | inline _ _ => cases hd

theorem of_container (hms : d.members? = some ds) (h : d.Corresponds ran suffix d') :
    ∃ ds', d'.members? = some ds' ∧ Decl.Extended ran suffix ds ds' := by
  cases h with
  | plain hplain _ _ =>
    rw [not_isPlain_of_members? hms] at hplain
    cases hplain
  | link hd _ => cases hd <;> cases hms
  | container hms₀ hms' _ _ h his =>
    cases hms.symm.trans hms₀
    exact ⟨_, hms', _, _, h, rfl, his⟩
  | inline _ _ => cases hms

theorem of_inline {h : ExportHead} (hd : (Decl.exports h (.inline d)).Corresponds ran suffix d') :
    ∃ h' d₁, d' = .exports h' (.inline d₁) ∧ h'.contents = h.contents ∧
      d.Corresponds ran suffix d₁ := by
  cases hd with
  | plain hplain _ _ => cases hplain
  | link hd _ => cases hd
  | container hms _ _ _ _ _ => cases hms
  | inline hh hd => exact ⟨_, _, rfl, hh, hd⟩

end Decl.Corresponds

/-- Kind and name tell which declaration it is. -/
theorem Decl.of_head (h : d'.kind = d.kind ∧ d'.name? = d.name?) : match d with
    | .var v => ∃ v', d' = .var v' ∧ v'.name = v.name
    | .cls c => ∃ c', d' = .cls c' ∧ c'.name = c.name
    | .function f => ∃ f', d' = .function f' ∧ f'.name = f.name
    | .iface i => ∃ i', d' = .iface i' ∧ i'.name = i.name
    | _ => True := by
  obtain ⟨hkind, hname⟩ := h
  cases d <;> cases d' <;>
    first | trivial | exact ⟨_, rfl, Option.some.inj hname⟩ | simp [kind] at hkind

theorem Decl.Gives.single (h : d.Gives ran suffix ds) (hvar : ∀ v, d.unwrapExport ≠ .var v) :
    ∃ d', ds = [d'] ∧ d.Corresponds ran suffix d' := by
  cases h with
  | one h => exact ⟨_, rfl, h⟩
  | cls _ _ | exportedCls _ _ _ | functions _ _ _ | hoisted _ _ _ => exact absurd rfl (hvar _)

theorem Decl.Splits.of_map {α κ : Type} {k : α → Decl} {g : α → κ}
    (hk : ∀ a b, (k a).Gives ran suffix b → ∃ a', b = [k a'] ∧ g a' = g a) {as : List α}
    (h : Decl.Splits ran suffix (as.map k) ds) :
    ∃ as' : List α, ds = as'.map k ∧ as'.map g = as.map g := by
  induction as generalizing ds with
  | nil =>
    cases h
    exact ⟨[], rfl, rfl⟩
  | cons a as ih =>
    cases h with
    | cons hd hds =>
      obtain ⟨a', rfl, ha⟩ := hk _ _ hd
      obtain ⟨as', rfl, has⟩ := ih hds
      exact ⟨a' :: as', rfl, by rw [List.map_cons, List.map_cons, ha, has]⟩

theorem Decl.Splits.of_functions {fs : List FunctionDecl}
    (h : Decl.Splits ran suffix (fs.map .function) ds) :
    ∃ fs' : List FunctionDecl, ds = fs'.map .function ∧ fs'.map (·.name) = fs.map (·.name) := by
  refine h.of_map fun f b hb => ?_
  obtain ⟨d', rfl, hd'⟩ := hb.single nofun
  obtain ⟨f', rfl, hname⟩ := of_head hd'.head_eq
  exact ⟨f', rfl, hname⟩

theorem Decl.Splits.of_interfaces (h : Decl.Splits ran suffix (is.map .iface) ds) :
    ∃ is' : List InterfaceDecl, ds = is'.map .iface ∧ is'.map (·.name) = is.map (·.name) := by
  refine h.of_map fun i b hb => ?_
  obtain ⟨d', rfl, hd'⟩ := hb.single nofun
  obtain ⟨i', rfl, hname⟩ := of_head hd'.head_eq
  exact ⟨i', rfl, hname⟩

theorem Decl.Splits.isHoistable (hcls : ¬ ran .extractClasses) (h : Decl.Splits ran suffix ds ds')
    (hds : ∀ d ∈ ds, d.isHoistable = true) : ∀ d ∈ ds', d.isHoistable = true := by
  induction ds generalizing ds' with
  | nil =>
    cases h
    exact nofun
  | cons d ds ih =>
    obtain ⟨hd, hds⟩ := List.forall_mem_cons.1 hds
    cases h with
    | cons hblock hrest =>
      refine List.forall_mem_append.2 ⟨?_, ih hrest hds⟩
      cases hblock with
      | one h =>
        refine List.forall_mem_singleton.2 ?_
        cases d with
        | function f =>
          obtain ⟨f', rfl, -⟩ := of_head h.head_eq
          rfl
        | var v =>
          obtain ⟨v', rfl, -⟩ := of_head h.head_eq
          rfl
        | _ => cases hd
      | cls hran _ => exact absurd hran hcls
      | exportedCls _ _ _ => cases hd
      | functions _ _ _ => exact List.forall_mem_map.2 fun _ _ => rfl
      | hoisted _ _ hrest => exact List.forall_mem_cons.2 ⟨rfl, hrest⟩

end

/-! ## Steps in turn -/

section
variable {A B C : PassName → Prop} {suffix : String}

theorem Decl.Gives.after {d d' : Decl} {b : List Decl} (hBC : ∀ p, B p → C p)
    (hd : d.Corresponds A suffix d') (htrans : ∀ {d''}, d'.Corresponds B suffix d'' →
      d.Corresponds C suffix d'') (h : d'.Gives B suffix b) : d.Gives C suffix b := by
  cases h with
  | one h => exact .one (htrans h)
  | cls hran hname =>
    obtain ⟨v, rfl, hv⟩ := of_head (hd.head_eq.imp .symm .symm)
    exact .cls (hBC _ hran) (by rwa [hv])
  | exportedCls hran hh hname =>
    cases hd with
    | plain hplain hkind _ => cases isPlain_of_kind hkind hplain
    | link hlinks hd => cases hlinks.of_contents hd
    | container _ hms' _ _ _ _ => cases hms'
    | inline hh' hd =>
      obtain ⟨v, rfl, hv⟩ := of_head (hd.head_eq.imp .symm .symm)
      exact .exportedCls (hBC _ hran) (hh.trans hh') (by rwa [hv])
  | functions hran hne hname =>
    obtain ⟨v, rfl, hv⟩ := of_head (hd.head_eq.imp .symm .symm)
    exact .functions (hBC _ hran) hne (by rwa [hv])
  | hoisted hran hname hds =>
    obtain ⟨v, rfl, hv⟩ := of_head (hd.head_eq.imp .symm .symm)
    exact .hoisted (hBC _ hran) (hname.trans hv.symm) hds

theorem Decl.Extended.after {ds ms ds' : List Decl} (hAC : ∀ p, A p → C p) (hBC : ∀ p, B p → C p)
    (his : is ≠ [] → A .extractInterfaces)
    (htrans : ∀ {ms'}, Decl.Splits B suffix ms ms' → Decl.Splits C suffix ds ms')
    (h : Decl.Extended B suffix (ms ++ is.map .iface) ds') : Decl.Extended C suffix ds ds' := by
  obtain ⟨ms', js, hspl, rfl, hjs⟩ := h
  obtain ⟨xs, ys, rfl, hxs, hys⟩ := hspl.of_append
  obtain ⟨is', rfl, his'⟩ := hys.of_interfaces
  refine ⟨xs, is' ++ js, htrans hxs, by rw [List.map_append, List.append_assoc], fun hne => ?_⟩
  by_cases hnil : js = []
  · refine hAC _ (his fun his₀ => hne ?_)
    rw [his₀] at his'
    rw [hnil, List.append_nil, List.map_eq_nil_iff.1 his']
  · exact hBC _ (hjs hnil)

mutual

theorem Decl.Corresponds.trans (hAC : ∀ p, A p → C p) (hBC : ∀ p, B p → C p)
    (hAB : A .hoisting → ¬ B .normalizeFunctions ∧ ¬ B .extractClasses) {d d' d'' : Decl} :
    d.Corresponds A suffix d' → d'.Corresponds B suffix d'' → d.Corresponds C suffix d''
  | .plain hd hkind hname, h => .plain hd (h.head_eq.1.trans hkind) (h.head_eq.2.trans hname)
  | .link hd hd', h => .link hd ((h.of_links (hd.of_contents hd')).trans hd')
  | .container hms hms' hkind hname hspl his, h => by
    obtain ⟨ds'', hds'', hextn⟩ := h.of_container hms'
    exact .of_extended hms hds'' (h.head_eq.1.trans hkind) (h.head_eq.2.trans hname)
      (hextn.after hAC hBC his (hspl.trans hAC hBC hAB))
  | .inline hh hd, h => by
    obtain ⟨h'', d₂, rfl, hh', hd'⟩ := h.of_inline
    exact .inline (hh'.trans hh) (hd.trans hAC hBC hAB hd')

theorem Decl.Gives.trans (hAC : ∀ p, A p → C p) (hBC : ∀ p, B p → C p)
    (hAB : A .hoisting → ¬ B .normalizeFunctions ∧ ¬ B .extractClasses) {d : Decl} {b b' : List Decl} :
    d.Gives A suffix b → Decl.Splits B suffix b b' → d.Gives C suffix b'
  | .one hd, h => h.single.after hBC hd (hd.trans hAC hBC hAB)
  | .cls hran hname, h => by
    obtain ⟨d', rfl, hd'⟩ := h.single.single nofun
    obtain ⟨c', rfl, hc'⟩ := of_head hd'.head_eq
    exact .cls (hAC _ hran) (by rwa [hc'])
  | .exportedCls hran hh hname, h => by
    obtain ⟨d', rfl, hd'⟩ := h.single.single nofun
    obtain ⟨h'', d₁, rfl, hh', hd₁⟩ := hd'.of_inline
    obtain ⟨c', rfl, hc'⟩ := of_head hd₁.head_eq
    exact .exportedCls (hAC _ hran) (hh'.trans hh) (by rwa [hc'])
  | .functions hran hne hname, h => by
    obtain ⟨fs', rfl, hfs'⟩ := h.of_functions
    refine .functions (hAC _ hran) ?_ fun f' hf' => ?_
    · rintro rfl
      exact hne (List.map_eq_nil_iff.1 hfs'.symm)
    · have hmem : f'.name ∈ fs'.map (·.name) := List.mem_map_of_mem hf'
      rw [hfs'] at hmem
      obtain ⟨f, hf, heq⟩ := List.mem_map.1 hmem
      exact heq.symm.trans (hname f hf)
  | .hoisted hran hname hds, h => by
    obtain ⟨hfun, hcls⟩ := hAB hran
    cases h with
    | cons hblock hrest =>
      have hrest := hrest.isHoistable hcls hds
      cases hblock with
      | one hd =>
        obtain ⟨v', rfl, hv'⟩ := of_head hd.head_eq
        exact .hoisted (hAC _ hran) (hv'.trans hname) hrest
      | cls hran' _ => exact absurd hran' hcls
      | functions hran' _ _ => exact absurd hran' hfun
      | hoisted _ hname' hds' =>
        exact .hoisted (hAC _ hran) (hname'.trans hname) (List.forall_mem_append.2 ⟨hds', hrest⟩)

theorem Decl.Splits.trans (hAC : ∀ p, A p → C p) (hBC : ∀ p, B p → C p)
    (hAB : A .hoisting → ¬ B .normalizeFunctions ∧ ¬ B .extractClasses) {ds ds' ds'' : List Decl} :
    Decl.Splits A suffix ds ds' → Decl.Splits B suffix ds' ds'' → Decl.Splits C suffix ds ds''
  | .nil, h => by
    cases h
    exact .nil
  | .cons hd hds, h => by
    obtain ⟨xs, ys, rfl, hxs, hys⟩ := h.of_append
    exact .cons (hd.trans hAC hBC hAB hxs) (hds.trans hAC hBC hAB hys)

end

end

/-! ## One step -/

def Pass.name : Pass → PassName
  | .setCodePath _ => .setCodePath
  | .simplifyTypes => .simplifyTypes
  | .expandTypeMappings => .expandTypeMappings
  | .normalizeFunctions => .normalizeFunctions
  | .extractClasses _ => .extractClasses
  | .forwardCtors => .forwardCtors
  | .hoisting => .hoisting
  | .extractInterfaces _ => .extractInterfaces
  | .typeRewriter _ => .typeRewriter
  | .keepFirstOverloadComment => .keepFirstOverloadComment

theorem Pass.name_ofOptions (o : Options) (lib : Ident) (p : PassName) : (ofOptions o lib p).name = p := by
  cases p <;> rfl

variable {p : CodePath} {f : File}

section
variable {ran : PassName → Prop} {suffix : String}

mutual

theorem Decl.Corresponds.refl : (d : Decl) → d.Corresponds ran suffix d
  | .space _ ms | .module _ ms | .augmentation _ ms | .global _ ms => .of_extended rfl rfl rfl rfl
    ⟨ms, [], Decl.Splits.refl ms, (List.append_nil ms).symm, nofun⟩
  | .cls _ | .iface _ | .enum _ | .var _ | .function _ | .typeAlias _ => .plain rfl rfl rfl
  | .imports i => .link (.imports i) rfl
  | .exports _ (.inline d) => .inline rfl (Decl.Corresponds.refl d)
  | .exports h (.names xs m) => .link (.names h xs m) rfl
  | .exports h (.star x m) => .link (.star h x m) rfl
  | .exportAs e => .link (.exportAs e) rfl

theorem Decl.Splits.refl : (ds : List Decl) → Decl.Splits ran suffix ds ds
  | [] => .nil
  | d :: ds => .cons (.one (Decl.Corresponds.refl d)) (Decl.Splits.refl ds)

end

theorem Decl.Extended.refl (ds : List Decl) : Decl.Extended ran suffix ds ds :=
  ⟨ds, [], .refl ds, (List.append_nil ds).symm, nofun⟩

variable {ds ds' : List Decl}

section
variable {step : Pass} (hran : ran step.name) (hsuffix : ∀ s, step = .extractClasses s → s = suffix)
include hran hsuffix

theorem Decl.Yields.gives {d : Decl} (h : d.Yields p step ds) : d.Gives ran suffix ds := by
  cases h with
  | same => exact .one (.refl d)
  | stripped f => exact .one (.plain rfl rfl rfl)
  | functions hne hfs => exact .functions hran hne fun f hf => (hfs f hf).1
  | cls hc =>
    cases hsuffix _ rfl
    exact .cls hran (hc.imp And.left And.left)
  | exportedCls h hc =>
    cases hsuffix _ rfl
    exact .exportedCls hran rfl (hc.imp And.left And.left)
  | hoisted v hds =>
    refine .hoisted hran rfl fun d hd => ?_
    cases hds d hd <;> rfl

theorem Decl.YieldsAll.splits (h : Decl.YieldsAll p step ds ds') : Decl.Splits ran suffix ds ds' := by
  induction h with
  | nil => exact .nil
  | cons hd _ ih => exact .cons (hd.gives hran hsuffix) ih

theorem Decl.Regrouped.splits (h : Decl.Regrouped p step ds ds') : Decl.Extended ran suffix ds ds' := by
  cases h with
  | replaced h => exact ⟨ds', [], h.splits hran hsuffix, (List.append_nil ds').symm, nofun⟩
  | extended ds _ => exact ⟨ds, _, .refl ds, rfl, fun _ => hran⟩

theorem Pass.shape_regroup (h : step.shape.regroup p ds ds') : Decl.Extended ran suffix ds ds' := by
  cases step with
  | setCodePath lib =>
    obtain rfl : ds' = ds := h
    exact .refl ds'
  | _ => exact Decl.Regrouped.splits hran hsuffix h

end

section
variable {S : Shape}

mutual

theorem Decl.Reshaped.corresponds
    (hS : ∀ {p ds ds'}, S.regroup p ds ds' → Decl.Extended ran suffix ds ds')
    (hran : ran .hoisting → ¬ ran .normalizeFunctions ∧ ¬ ran .extractClasses) {p : CodePath}
    {d d' : Decl} : d.Reshaped S p d' → d.Corresponds ran suffix d'
  | .plain hd h => .plain hd h.kind h.name
  | .link hd h => .link hd h
  | .container hms hms' h hall hreg => by
    have hspl := hall.splits hS hran
    obtain ⟨ms, is, hms₁, heq, his⟩ := hS hreg
    exact .container hms (heq ▸ hms') h.kind h.name
      (hspl.trans (fun _ h => h) (fun _ h => h) hran hms₁) his
  | .inline hh hd => .inline hh (hd.corresponds hS hran)

theorem Decl.ReshapedAll.splits
    (hS : ∀ {p ds ds'}, S.regroup p ds ds' → Decl.Extended ran suffix ds ds')
    (hran : ran .hoisting → ¬ ran .normalizeFunctions ∧ ¬ ran .extractClasses) {p : CodePath}
    {ds ds' : List Decl} : Decl.ReshapedAll S p ds ds' → Decl.Splits ran suffix ds ds'
  | .nil => .nil
  | .cons hd hds => .cons (.one (hd.corresponds hS hran)) (hds.splits hS hran)

end

theorem File.Reshaped.extended (hS : ∀ {p ds ds'}, S.regroup p ds ds' → Decl.Extended ran suffix ds ds')
    (hran : ran .hoisting → ¬ ran .normalizeFunctions ∧ ¬ ran .extractClasses) (h : f.Reshaped S p f') :
    Decl.Extended ran suffix f.members f'.members := by
  obtain ⟨-, ms₁, hall, hreg⟩ := h
  obtain ⟨ms, is, hms, heq, his⟩ := hS hreg
  exact ⟨ms, is, (hall.splits hS hran).trans (fun _ h => h) (fun _ h => h) hran hms, heq, his⟩

end

end

theorem Decl.Extended.trans {A B C : PassName → Prop} {suffix : String} (hAC : ∀ p, A p → C p)
    (hBC : ∀ p, B p → C p) (hAB : A .hoisting → ¬ B .normalizeFunctions ∧ ¬ B .extractClasses)
    {ds ds' ds'' : List Decl} (h : Decl.Extended A suffix ds ds')
    (h' : Decl.Extended B suffix ds' ds'') : Decl.Extended C suffix ds ds'' := by
  obtain ⟨ms, is, hms, rfl, his⟩ := h
  exact h'.after hAC hBC his (hms.trans hAC hBC hAB)

/-- **What one step does**: it gives every member its block. -/
theorem Pass.runAnew_extended (hdeps : root.deps.InOrder) {p : PassName} {remember : Bool}
    {e : Edited File} (h : (Pass.ofOptions o root.lib p).runAnew root remember f = .ok e) :
    Decl.Extended (· = p) o.classBackupSuffix f.members e.value.members := by
  have hname := Pass.name_ofOptions o root.lib p
  have hsuffix : ∀ s, Pass.ofOptions o root.lib p = .extractClasses s → s = o.classBackupSuffix := by
    intro s hs
    cases p <;> cases hs
    rfl
  have hself : .hoisting = p → ¬ .normalizeFunctions = p ∧ ¬ .extractClasses = p := by
    rintro rfl
    decide
  have hnum : Decl.Extended (· = p) o.classBackupSuffix f.members
      (f.number root.deps.nextId).1.members :=
    (f.reshaped_number (Pass.ofOptions o root.lib p) root.deps.nextId).extended
      (fun h => Decl.Regrouped.splits hname hsuffix h) hself
  have hrun : Decl.Extended (· = p) o.classBackupSuffix (f.number root.deps.nextId).1.members
      e.value.members :=
    (Pass.runAnew_reshapes hdeps h).extended (fun h => Pass.shape_regroup hname hsuffix h) hself
  exact hnum.trans (fun _ h => h) (fun _ h => h) hself hrun

/-! ## A run -/

theorem PassName.order_hoisting :
    order.Pairwise fun p q => p = hoisting → q ≠ normalizeFunctions ∧ q ≠ extractClasses := by
  decide

theorem runPasses_extended (hdeps : root.deps.InOrder) {ps : List PassName}
    (hps : ps.Pairwise fun p q => p = .hoisting → q ≠ .normalizeFunctions ∧ q ≠ .extractClasses)
    {changed : List PassName} (h : runPasses o root ps f = .ok (f', changed)) :
    Decl.Extended (· ∈ ps) o.classBackupSuffix f.members f'.members := by
  induction ps generalizing f changed with
  | nil =>
    cases h
    exact .refl _
  | cons p ps ih =>
    obtain ⟨e, rest, he, hrest⟩ := runPasses_cons_ok h
    obtain ⟨hp, hps⟩ := List.pairwise_cons.1 hps
    refine (Pass.runAnew_extended hdeps he).trans (fun q hq => hq ▸ (.head _))
      (fun q hq => List.mem_cons_of_mem p hq) (fun hhoist => ?_) (ih hps hrest)
    exact ⟨fun hmem => (hp _ hmem hhoist.symm).1 rfl, fun hmem => (hp _ hmem hhoist.symm).2 rfl⟩

/-- **No declaration is lost or reordered.** The members of the file that a run gives are blocks, one for
each member of the given file and in the same order, and then interfaces if those were extracted; the
block of a container has a container of its kind and name, of which the same holds. -/
theorem compile_keeps_declarations (o : Options) (lib : Library) (out : Compiled)
    (h : compile o lib = .ok out) :
    ∃ blocks, ∃ is : List InterfaceDecl,
      List.Forall₂ (Decl.Gives (· ∈ o.passes) o.classBackupSuffix) lib.file.members blocks ∧
        (∀ block ∈ blocks, block ≠ []) ∧ out.file.members = blocks.flatten ++ is.map .iface ∧
        (is ≠ [] → .extractInterfaces ∈ o.passes) := by
  have hdeps : (lib.root o.pedantic).deps.InOrder := Dependencies.inOrder_ofFiles lib.deps
  obtain ⟨changed, hrun⟩ := compile_ok h
  have hpasses := PassName.order_hoisting.sublist (List.filter_sublist (p := fun p =>
    o.isEnabled p && (p != .typeRewriter || !o.typeSubstitutions.isEmpty)))
  obtain ⟨ms, is, hms, heq, his⟩ := runPasses_extended hdeps hpasses hrun
  obtain ⟨blocks, hblocks, hne, rfl⟩ := hms.blocks
  exact ⟨blocks, is, hblocks, hne, heq, his⟩

/-- A variable that can be called in two ways, and one with a literal for its type. -/
def callableValue : Library where
  name := "lib"
  deps := []
  file :=
    { info := {}
      directives := []
      codePath := .noPath
      members :=
        [.var ⟨{}, true, true, "f", some (.object {} [.call ⟨{}, .default, ⟨{}, [], [], none⟩⟩,
            .call ⟨{}, .default, ⟨{}, [], [⟨{}, "x", none⟩], none⟩⟩]), none, .zero, .noPath⟩,
         .var ⟨{}, true, true, "y", some (.object {} [.property ⟨{}, .default, "a",
            some (.ref {} ["string"] []), none, false, false⟩]), none, .zero, .noPath⟩] }

/-- The first variable gives two functions, the second stays, and its interface comes last. -/
theorem compile_keeps_callable_value :
    ∃ out blocks, ∃ is : List InterfaceDecl, compile {} callableValue = .ok out ∧
      List.Forall₂ (Decl.Gives (· ∈ Options.passes {}) "Cls") callableValue.file.members blocks ∧
      out.file.members = blocks.flatten ++ is.map .iface ∧
      out.file.members.map Decl.kind = ["Function", "Function", "Var", "Interface"] := by
  have hrun : ((compile {} callableValue).toOption.any fun out =>
      out.file.members.map Decl.kind == ["Function", "Function", "Var", "Interface"]) = true := by
    decide +kernel
  cases h : compile {} callableValue with
  | error e => rw [h] at hrun; cases hrun
  | ok out =>
    rw [h, Except.toOption, Option.any_some, beq_iff_eq] at hrun
    obtain ⟨blocks, is, hblocks, -, heq, -⟩ := compile_keeps_declarations {} callableValue out h
    exact ⟨out, blocks, is, rfl, hblocks, heq, hrun⟩

end Ambient
