import Ambient.Proofs.Beside
import Ambient.Proofs.Nesting

/-!
# The variables that a file declares

`File.DeclaresVar f x`: somewhere in the file, perhaps in an export, stands a variable named `x`.
Classes and functions take the place of variables, and only the members of an exported variable become
variables themselves: no other step declares a variable of a new name (`Pass.runAnew_declaresVar`).
-/

namespace Ambient

/-! ## Variables at any depth -/

/-- The declaration is a variable named `x`, or such a variable stands in it. -/
inductive Decl.HoldsVar (x : Ident) : Decl → Prop
  | here {v : VarDecl} (hv : v.name = x) : HoldsVar x (.var v)
  | member {c d : Decl} {ds : List Decl} (hds : c.members? = some ds) (hd : d ∈ ds) (h : HoldsVar x d) :
    HoldsVar x c
  | exported {h : ExportHead} {d : Decl} (hd : HoldsVar x d) : HoldsVar x (.exports h (.inline d))

/-- The file declares a variable named `x`. -/
def File.DeclaresVar (f : File) (x : Ident) : Prop :=
  ∃ path v, f.Nests path (.var v) ∧ v.name = x

variable {p : CodePath} {d : Decl} {ds : List Decl} {step : Pass}

section
variable {f : File} {x : Ident}

theorem File.Nests.declaresVar {path : QIdent} (hd : f.Nests path d) (h : d.HoldsVar x) :
    f.DeclaresVar x := by
  induction h generalizing path with
  | here hv => exact ⟨path, _, hd, hv⟩
  | member hds hmem _ ih => exact ih (hd.inside hds hmem)
  | exported _ ih => exact ih hd.exported

theorem File.Nests.member_holdsVar {path : QIdent} (hd : f.Nests path d) :
    d.HoldsVar x → ∃ e ∈ f.members, e.HoldsVar x := by
  induction hd with
  | top hd => exact fun h => ⟨_, hd, h⟩
  | inside _ hds hd ih => exact fun h => ih (.member hds hd h)
  | exported _ ih => exact fun h => ih (.exported h)

theorem File.declaresVar_iff : f.DeclaresVar x ↔ ∃ d ∈ f.members, d.HoldsVar x := by
  constructor
  · rintro ⟨path, v, hv, hx⟩
    exact hv.member_holdsVar (.here hx)
  · rintro ⟨d, hd, h⟩
    exact (File.Nests.top hd).declaresVar h

theorem Node.decl_mem_children {n : Node} (hd : .decl d ∈ n.children) :
    (∃ ds, n.members? = some ds ∧ d ∈ ds) ∨ ∃ h, n = .decl (.exports h (.inline d)) := by
  cases hds : n.members? with
  | some ds =>
    rw [children_of_members? hds, List.mem_map] at hd
    obtain ⟨e, he, ⟨⟩⟩ := hd
    exact .inl ⟨ds, rfl, he⟩
  | none =>
    have hn : ¬ n.isQuiet = true := fun hn => by cases isPart_children hn hd
    cases n with
    | file f => cases hds
    | decl c =>
      cases c with
      | exports h e =>
        cases e with
        | inline e =>
          cases List.mem_singleton.1 hd
          exact .inr ⟨h, rfl⟩
        | names xs m => cases hd
        | star y m => cases hd
      | imports i => cases hd
      | exportAs e => cases hd
      | _ => first | exact absurd rfl hn | cases hds
    | _ => exact absurd rfl hn

theorem File.Contains.nests {n : Node} (h : f.Contains n) :
    (∀ g, n = .file g → g = f) ∧ ∀ d, n = .decl d → ∃ path, f.Nests path d := by
  induction h with
  | file => exact ⟨fun g hg => (Node.file.inj hg).symm, nofun⟩
  | @child n m _ hm ih =>
    refine ⟨?_, ?_⟩
    · rintro g rfl
      cases (Node.decl_of_mem_children hm rfl).2.choose_spec
    · rintro d rfl
      rcases Node.decl_mem_children hm with ⟨ds, hds, hd⟩ | ⟨h, rfl⟩
      · cases n with
        | file g =>
          cases hds
          obtain rfl := ih.1 g rfl
          exact ⟨[], .top hd⟩
        | decl c =>
          obtain ⟨path, hc⟩ := ih.2 c rfl
          exact ⟨_, hc.inside hds hd⟩
        | _ => cases hds
      · obtain ⟨path, hc⟩ := ih.2 _ rfl
        exact ⟨path, hc.exported⟩

end

/-! ## What steps do to variables -/

section
variable {x : Ident}

theorem Decl.HoldsVar.not_links (h : d.HoldsVar x) : ¬ d.Links := by
  intro hd
  cases hd <;> cases h with
  | member hds => cases hds

theorem Decl.HoldsVar.of_isPlain (h : d.HoldsVar x) (hd : d.isPlain = true) :
    ∃ v, d = .var v ∧ v.name = x := by
  cases h with
  | here hv => exact ⟨_, rfl, hv⟩
  | member hds =>
    rw [not_isPlain_of_members? hds] at hd
    cases hd
  | exported => cases hd

theorem Decl.HoldsVar.of_members (h : d.HoldsVar x) (hds : d.members? = some ds) : ∃ e ∈ ds, e.HoldsVar x := by
  cases h with
  | here => cases hds
  | member hds' he h =>
    cases hds.symm.trans hds'
    exact ⟨_, he, h⟩
  | exported => cases hds

theorem Decl.HoldsVar.of_keeps {S : Shape} {d' : Decl} (h : S.Keeps p d d') (hd : d.isPlain = true)
    (hvar : d'.HoldsVar x) : d.HoldsVar x := by
  obtain ⟨v, rfl, hv⟩ := hvar.of_isPlain (isPlain_of_kind h.kind hd)
  have hkind := h.kind
  cases d with
  | var u => exact .here ((Option.some.inj h.name).symm.trans hv)
  | _ => simp [kind] at hkind

/-- No variable is put among the members of a container unless one of its name was there. -/
def Shape.KeepsVars (S : Shape) (x : Ident) : Prop :=
  ∀ p ds ds', S.regroup p ds ds' → (∃ d ∈ ds', d.HoldsVar x) → ∃ d ∈ ds, d.HoldsVar x

mutual

theorem Decl.Reshaped.holdsVar {S : Shape} (hS : S.KeepsVars x) {p : CodePath} {d d' : Decl} :
    d.Reshaped S p d' → d'.HoldsVar x → d.HoldsVar x
  | .plain hd h, hvar => hvar.of_keeps h hd
  | .link hd h, hvar => absurd (hd.of_contents h) hvar.not_links
  | .container hms hms' _ hall hreg, hvar => by
    obtain ⟨e, he, h⟩ := hall.holdsVar hS (hS _ _ _ hreg (hvar.of_members hms'))
    exact .member hms he h
  | .inline _ hd, .exported hvar => .exported (hd.holdsVar hS hvar)

theorem Decl.ReshapedAll.holdsVar {S : Shape} (hS : S.KeepsVars x) {p : CodePath} {ds ds' : List Decl} :
    Decl.ReshapedAll S p ds ds' → (∃ d ∈ ds', d.HoldsVar x) → ∃ d ∈ ds, d.HoldsVar x
  | .nil, h => h
  | .cons hd hds, ⟨e, he, h⟩ => by
    cases he with
    | head => exact ⟨_, .head _, hd.holdsVar hS h⟩
    | tail _ he =>
      obtain ⟨d, hmem, h⟩ := hds.holdsVar hS ⟨e, he, h⟩
      exact ⟨d, .tail _ hmem, h⟩

end

variable {f : File}

theorem File.Reshaped.declaresVar {S : Shape} (hS : S.KeepsVars x) {f' : File} (h : f.Reshaped S p f')
    (hvar : f'.DeclaresVar x) : f.DeclaresVar x := by
  obtain ⟨ms, hms, hreg⟩ := h.members
  exact declaresVar_iff.2 (hms.holdsVar hS (hS _ _ _ hreg (declaresVar_iff.1 hvar)))

theorem Decl.Yields.holdsVar (hstep : step ≠ .hoisting) (h : d.Yields p step ds)
    (hvar : ∃ e ∈ ds, e.HoldsVar x) : d.HoldsVar x := by
  obtain ⟨e, he, hvar⟩ := hvar
  cases h with
  | same => exact List.mem_singleton.1 he ▸ hvar
  | stripped f =>
    obtain rfl := List.mem_singleton.1 he
    obtain ⟨v, ⟨⟩, -⟩ := hvar.of_isPlain rfl
  | functions =>
    obtain ⟨f, -, rfl⟩ := List.mem_map.1 he
    obtain ⟨v, ⟨⟩, -⟩ := hvar.of_isPlain rfl
  | cls =>
    obtain rfl := List.mem_singleton.1 he
    obtain ⟨v, ⟨⟩, -⟩ := hvar.of_isPlain rfl
  | exportedCls =>
    obtain rfl := List.mem_singleton.1 he
    cases hvar with
    | member hds => cases hds
    | exported hvar => obtain ⟨v, ⟨⟩, -⟩ := hvar.of_isPlain rfl
  | hoisted => exact absurd rfl hstep

theorem Decl.YieldsAll.holdsVar (hstep : step ≠ .hoisting) {ds' : List Decl}
    (h : Decl.YieldsAll p step ds ds') (hvar : ∃ d ∈ ds', d.HoldsVar x) : ∃ d ∈ ds, d.HoldsVar x := by
  induction h with
  | nil => exact hvar
  | cons hd _ ih =>
    obtain ⟨e, he, hvar⟩ := hvar
    rcases List.mem_append.1 he with he | he
    · exact ⟨_, .head _, hd.holdsVar hstep ⟨e, he, hvar⟩⟩
    · obtain ⟨d, hd, hvar⟩ := ih ⟨e, he, hvar⟩
      exact ⟨d, .tail _ hd, hvar⟩

theorem Shape.still_keepsVars (hstep : step ≠ .hoisting) : (Shape.still step).KeepsVars x := by
  intro p ds ds' h hvar
  cases h with
  | replaced h => exact h.holdsVar hstep hvar
  | extended _ _ =>
    obtain ⟨e, he, hvar⟩ := hvar
    rcases List.mem_append.1 he with he | he
    · exact ⟨e, he, hvar⟩
    · obtain ⟨i, -, rfl⟩ := List.mem_map.1 he
      obtain ⟨v, ⟨⟩, -⟩ := hvar.of_isPlain rfl

theorem Pass.shape_keepsVars (hstep : step ≠ .hoisting) : step.shape.KeepsVars x := by
  cases step with
  | setCodePath lib => exact fun _ _ _ h hvar => (h : _ = _) ▸ hvar
  | _ => exact Shape.still_keepsVars hstep

theorem File.declaresVar_of_number {n : NodeId} (h : (f.number n).1.DeclaresVar x) :
    f.DeclaresVar x := by
  have hkeeps : (Shape.still .simplifyTypes).KeepsVars x := Shape.still_keepsVars (by simp)
  exact (f.reshaped_number .simplifyTypes n).declaresVar hkeeps h

/-- **No step but hoisting declares a variable of a new name.** -/
theorem Pass.runAnew_declaresVar {root : Root} (hdeps : root.deps.InOrder) (hstep : step ≠ .hoisting)
    {remember : Bool} {e : Edited File} (h : step.runAnew root remember f = .ok e)
    (hvar : e.value.DeclaresVar x) : f.DeclaresVar x :=
  File.declaresVar_of_number
    ((Pass.runAnew_reshapes hdeps h).declaresVar (Pass.shape_keepsVars hstep) hvar)

end

end Ambient
