import Ambient.Proofs.Likeness
import Ambient.Proofs.Renumber

/-!
# Outlines

What searches for names and for the parents of classes look at, of a declaration: kinds and names, the
names of type parameters, what imports and exports say, and the names of the parents of classes
(`Decl.outline`). Declarations with one outline are of one kind and name (`Decl.kin_of_outline`), and
numbering a file leaves its outline as it is (`File.outline_number`).
-/

namespace Ambient

/-- A type parameter reduced to its name. -/
def TypeParam.outline (p : TypeParam) : TypeParam := ⟨{}, p.name, none, none⟩

def Ty.outline : Ty → Ty
  | .ref _ q _ => .ref {} q []
  | _ => .this

mutual

/-- A declaration reduced to what searches for names and for the parents of classes look at. -/
def Decl.outline : Decl → Decl
  | .space h ms => .space ⟨{}, false, h.name, .noPath, .zero⟩ (Decl.outlineList ms)
  | .module h ms => .module ⟨{}, false, h.name, .noPath, .zero⟩ (Decl.outlineList ms)
  | .augmentation h ms => .augmentation ⟨{}, h.name, .noPath, .zero⟩ (Decl.outlineList ms)
  | .global _ ms => .global ⟨{}, false, .noPath⟩ (Decl.outlineList ms)
  | .cls c =>
    .cls ⟨{}, false, false, c.name, c.tparams.map TypeParam.outline, c.parent.map Ty.outline, [], [], .zero,
      .noPath⟩
  | .iface i => .iface ⟨{}, false, i.name, i.tparams.map TypeParam.outline, [], [], .noPath⟩
  | .enum e => .enum ⟨{}, false, false, e.name, [], false, none, .zero, .noPath⟩
  | .var v => .var ⟨{}, false, false, v.name, none, none, .zero, .noPath⟩
  | .function f =>
    .function ⟨{}, false, f.name, ⟨{}, f.sig.tparams.map TypeParam.outline, [], none⟩, .zero, .noPath⟩
  | .typeAlias a => .typeAlias ⟨{}, false, a.name, a.tparams.map TypeParam.outline, .this, .noPath⟩
  | .imports i => .imports ⟨0, false, i.imported, i.source⟩
  | .exports h e => .exports ⟨{}, false, h.kind⟩ e.outline
  | .exportAs _ => .exportAs ⟨0, ""⟩

/-- What an export makes visible, reduced like a declaration. -/
def Exportee.outline : Exportee → Exportee
  | .inline d => .inline d.outline
  | .names xs s => .names xs s
  | .star x s => .star x s

def Decl.outlineList : List Decl → List Decl
  | [] => []
  | d :: ds => d.outline :: Decl.outlineList ds

end

theorem Decl.outlineList_eq_map (ds : List Decl) : Decl.outlineList ds = ds.map Decl.outline := by
  induction ds with
  | nil => rfl
  | cons d ds ih => rw [outlineList, ih, List.map_cons]

theorem TypeParam.outline_names {ps qs : List TypeParam} :
    ps.map outline = qs.map outline ↔ ps.map (·.name) = qs.map (·.name) := by
  have hname : ∀ ps : List TypeParam, (ps.map (·.name)).map (fun x => (⟨{}, x, none, none⟩ : TypeParam)) =
      ps.map outline := fun ps => by rw [List.map_map]; rfl
  constructor
  · intro h
    have hnames := congrArg (List.map (·.name)) h
    simpa [List.map_map, Function.comp_def, outline] using hnames
  · intro h
    rw [← hname, h, hname]

mutual

theorem Decl.kin_of_outline (d : Decl) {e : Decl} (h : d.outline = e.outline) : d.Kin e := by
  cases d with
  | exports x a =>
    have ih := @Exportee.kin_of_outline a
    cases e with
    | exports y b =>
      simp only [Decl.outline, Decl.exports.injEq, ExportHead.mk.injEq, true_and] at h
      exact .exports h.1 (ih h.2)
    | _ => simp [Decl.outline] at h
  | imports i =>
    cases e with
    | imports j =>
      simp only [Decl.outline, Decl.imports.injEq, ImportDecl.mk.injEq, true_and] at h
      exact .imports h.2 h.1
    | _ => simp [Decl.outline] at h
  | global =>
    cases e with
    | global => exact .global
    | _ => simp [Decl.outline] at h
  | exportAs =>
    cases e with
    | exportAs => exact .exportAs
    | _ => simp [Decl.outline] at h
  | _ =>
    cases e <;> simp [Decl.outline] at h
    constructor
    simp [h]
termination_by structural d

theorem Exportee.kin_of_outline (a : Exportee) {b : Exportee} (h : a.outline = b.outline) : a.Kin b := by
  cases a with
  | inline d =>
    have ih := @Decl.kin_of_outline d
    cases b with
    | inline e => exact .inline (ih (Exportee.inline.inj h))
    | _ => simp [Exportee.outline] at h
  | _ =>
    cases b <;> simp [Exportee.outline] at h
    obtain ⟨rfl, rfl⟩ := h
    constructor
termination_by structural a

end

/-! ## Outlines of numbered files -/

theorem TypeParam.outline_renumberList (ps : List TypeParam) (k : NodeId) :
    ((TypeParam.renumberList nextId ps).run k).1.map outline = ps.map outline :=
  outline_names.2 (names_of_beq (restoresList ps k).1)

theorem Ty.outline_renumberOption (t : Option Ty) (k : NodeId) :
    ((Ty.renumberOption nextId t).run k).1.map outline = t.map outline := by
  cases t with
  | none => rfl
  | some t => cases t <;> rfl

theorem Signature.outline_renumber (s : Signature) (k : NodeId) :
    ((s.renumber nextId).run k).1.tparams.map TypeParam.outline = s.tparams.map TypeParam.outline := by
  obtain ⟨_, ps, _, _⟩ := s
  exact TypeParam.outline_renumberList ps (k + 1)

theorem Decl.outline_renumber_all :
    (∀ d k, ((Decl.renumber nextId d).run k).1.outline = d.outline) ∧
    (∀ x k, ((Exportee.renumber nextId x).run k).1.outline = x.outline) ∧
    ∀ ds k, Decl.outlineList ((Decl.renumberList nextId ds).run k).1 = Decl.outlineList ds := by
  apply Decl.renumber.mutual_induct <;> intros <;> simp_all only [Decl.renumber, Exportee.renumber,
    Decl.renumberList, Decl.outline, Exportee.outline, Decl.outlineList, ClassDecl.renumber,
    InterfaceDecl.renumber, EnumDecl.renumber, VarDecl.renumber, FunctionDecl.renumber,
    AliasDecl.renumber, TypeParam.outline_renumberList, Ty.outline_renumberOption,
    Signature.outline_renumber, numbering_bind, numbering_pure, numbering_next, numbering_info]

theorem File.outline_number (f : File) (n : NodeId) :
    Decl.outlineList (f.number n).1.members = Decl.outlineList f.members :=
  Decl.outline_renumber_all.2.2 f.members (n + 1)

namespace Decl

variable {d e : Decl}

theorem tparams_of_outline (h : d.outline = e.outline) :
    d.tparams.map (·.name) = e.tparams.map (·.name) := by
  have htps : ∀ d : Decl, d.outline.tparams = d.tparams.map TypeParam.outline := by
    intro d
    cases d <;> rfl
  exact TypeParam.outline_names.1 (by rw [← htps, ← htps, h])

theorem members_of_outline (h : d.outline = e.outline) :
    d.members?.map outlineList = e.members?.map outlineList := by
  have hmems : ∀ d : Decl, d.outline.members? = d.members?.map outlineList := by
    intro d
    cases d <;> rfl
  rw [← hmems, ← hmems, h]

theorem parent_of_outline {c c' : ClassDecl} (h : (Decl.cls c).outline = (Decl.cls c').outline)
    {i : NodeInfo} {q : QIdent} {targs : List Ty} (hpar : c.parent = some (.ref i q targs)) :
    ∃ j us, c'.parent = some (.ref j q us) := by
  simp only [outline, Decl.cls.injEq, ClassDecl.mk.injEq, hpar] at h
  obtain ⟨-, -, -, -, -, h, -⟩ := h
  cases hpar' : c'.parent with
  | none => rw [hpar'] at h; cases h
  | some t =>
    rw [hpar'] at h
    cases t with
    | ref j r us =>
      cases h
      exact ⟨j, us, rfl⟩
    | _ => cases h

end Decl

end Ambient
