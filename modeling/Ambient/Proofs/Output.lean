import Ambient.Proofs.Extraction
import Ambient.Proofs.Rebuild

/-!
# The file that a run gives

A run that extracts interfaces keeps every declaration in its place and gives each container new
interfaces at its end (`Decl.Turns`). No container is given something twice (`recordExtraction_once`).
-/

namespace Ambient

/-! ## What is added to the record -/

/-- The computation only adds to the record, and what it gives and adds is as `post` says. -/
def Adds {α : Type} (x : Recording α) (post : α → Record → Prop) : Prop :=
  ∀ log pending σ r, ((x.run log).run pending).run σ = .ok r →
    ∃ new, r.1.1.2 = new ++ log ∧ post r.1.1.1 new

namespace Adds

variable {α β : Type} {post : α → Record → Prop} {post' : β → Record → Prop}

theorem pure {a : α} (h : post a []) : Adds (Pure.pure a) post := by
  intro log pending σ r hr
  cases hr
  exact ⟨[], rfl, h⟩

theorem bind {x : Recording α} {f : α → Recording β} (hx : Adds x post)
    (hf : ∀ a new, post a new → Adds (f a) fun b more => post' b (more ++ new)) :
    Adds (x >>= f) post' := by
  intro log pending σ r hr
  simp only [StateT.run_bind] at hr
  obtain ⟨r₁, hx₁, hr⟩ := bind_eq_ok.1 hr
  obtain ⟨new, hlog, hnew⟩ := hx log pending σ r₁ hx₁
  obtain ⟨more, hlog', hmore⟩ := hf _ _ hnew _ _ _ r hr
  exact ⟨more ++ new, by rw [hlog', hlog, List.append_assoc], hmore⟩

end Adds

/-- Nothing was given to a container. -/
def Record.Quiet (new : Record) : Prop := ∀ c is, Event.emitted c is ∉ new

/-- What a computation does to the record, whatever the state. -/
def adding : Relator Recording Recording (Record → Prop) where
  rel I J {_} x _ := ∀ log pending σ r, I log → ((x.run log).run pending).run σ = .ok r → J r.1.1.2
  le I J := ∀ log, I log → J log
  refl _ _ h := h
  pure _ _ _ _ _ _ _ h hr := by
    cases hr
    exact h
  bind {I J K} α β x y f g hx hf log pending σ r h hr := by
    simp only [StateT.run_bind] at hr
    cases hx₁ : ((x.run log).run pending).run σ with
    | error e => rw [hx₁] at hr; cases hr
    | ok r₁ =>
      rw [hx₁] at hr
      exact hf _ _ _ _ r (hx log pending σ r₁ h hx₁) hr
  conseq hI hJ hx log pending σ r h hr := hJ _ (hx log pending σ r (hI log h) hr)

/-- Does the declaration hold no other declarations and give its name to something? -/
def Decl.isPlain : Decl → Bool
  | .cls _ | .iface _ | .enum _ | .var _ | .function _ | .typeAlias _ => true
  | _ => false

/-- Is the node a part of a declaration, and none itself? -/
def Node.isPart : Node → Bool
  | .file _ | .decl _ => false
  | _ => true

/-- Does the node hold no declarations? -/
def Node.isQuiet : Node → Bool
  | .file _ => false
  | .decl d => d.isPlain
  | _ => true

theorem Node.isQuiet_of_isPart {n : Node} (h : n.isPart = true) : n.isQuiet = true := by
  cases n <;> first | rfl | cases h

theorem Node.isContainer_of_isQuiet {n : Node} (h : n.isQuiet = true) : n.isContainer = false := by
  cases n with
  | file f => cases h
  | decl d => cases d <;> first | rfl | cases h
  | _ => rfl

mutual

theorem Expr.isPart_nodes (e : Expr) : ∀ n ∈ e.nodes, n.isPart = true := by
  cases e with
  | ref x | literal v => simp [Expr.nodes]
  | call f ps =>
    simpa only [Expr.nodes] using
      List.forall_mem_append.2 ⟨Expr.isPart_nodes f, Expr.isPart_nodesList ps⟩
  | unary o e => exact Expr.isPart_nodes e
  | binary a o b =>
    simpa only [Expr.nodes] using
      List.forall_mem_append.2 ⟨Expr.isPart_nodes a, Expr.isPart_nodes b⟩
  | cast e t =>
    simpa only [Expr.nodes] using
      List.forall_mem_append.2 ⟨Expr.isPart_nodes e, List.forall_mem_singleton.2 rfl⟩
  | arrayOf e => exact Expr.isPart_nodes e

theorem Expr.isPart_nodesList (es : List Expr) : ∀ n ∈ Expr.nodesList es, n.isPart = true := by
  cases es with
  | nil => simp [Expr.nodesList]
  | cons e es =>
    simpa only [Expr.nodesList] using
      List.forall_mem_append.2 ⟨Expr.isPart_nodes e, Expr.isPart_nodesList es⟩

end

theorem Expr.isPart_nodesOption (e : Option Expr) : ∀ n ∈ Expr.nodesOption e, n.isPart = true := by
  cases e with
  | none => exact List.forall_mem_nil _
  | some e => exact e.isPart_nodes

theorem Node.isPart_children {n m : Node} (h : n.isQuiet = true) (hm : m ∈ n.children) :
    m.isPart = true := by
  have hexpr := Expr.isPart_nodesOption
  cases n with
  | file f => cases h
  | decl d =>
    simp only [children] at hm
    unfold childrenOfDecl at hm
    split at hm <;> grind [isPart, isQuiet, Decl.isPlain]
  | member x =>
    simp only [children] at hm
    unfold childrenOfMember at hm
    split at hm <;> grind [isPart]
  | ty t =>
    simp only [children] at hm
    unfold childrenOfTy at hm
    split at hm <;> grind [isPart]
  | sig s | param p | tparam p => grind [children, isPart]

theorem leaveTy_quiet (stem : String) (log : Record) (s : Scope) (t : Ty) :
    adding.rel (fun log' => ∃ new, log' = new ++ log ∧ Record.Quiet new)
      (fun log' => ∃ new, log' = new ++ log ∧ Record.Quiet new)
      ((recordedHooks stem).leaveTy s t) ((recordedHooks stem).leaveTy s t) := by
  rintro log' pending σ r ⟨new, rfl, hnew⟩ hr
  rw [leaveTy_run, StateT.run_bind] at hr
  obtain ⟨⟨⟨placement, pending'⟩, σ'⟩, hp, hr⟩ := bind_eq_ok.1 hr
  cases placement with
  | none =>
    cases hr
    exact ⟨new, rfl, hnew⟩
  | some p =>
    cases hr
    exact ⟨.replaced s t p :: new, rfl, by simpa [Record.Quiet] using hnew⟩

theorem recordedHooks_quiet (stem : String) (log : Record) :
    Hooks.Related adding (recordedHooks stem) (recordedHooks stem)
      (fun _ log' => ∃ new, log' = new ++ log ∧ Record.Quiet new) fun _ n => n.isQuiet = true where
  within := rfl
  child hn hm := Node.isQuiet_of_isPart (Node.isPart_children hn hm)
  down _ _ h := h
  up _ _ _ h := h
  enterFile _ _ := adding.pure _ _
  enterDecl _ _ := adding.pure _ _
  enterMember _ _ := adding.pure _ _
  enterTy _ _ := adding.pure _ _
  enterSig _ _ := adding.pure _ _
  enterParam _ _ := adding.pure _ _
  enterTypeParam _ _ := adding.pure _ _
  enterExpr _ _ _ := adding.pure _ _
  newMembers _ _ hn hc _ := by rw [Node.isContainer_of_isQuiet hn] at hc; cases hc
  newClassMembers _ _ _ _ := adding.pure _ _
  leaveFile _ _ _ := adding.pure _ _
  leaveDecl _ _ _ := adding.pure _ _
  leaveMember _ _ _ := adding.pure _ _
  leaveTy t' _ _ := leaveTy_quiet stem log _ t'
  leaveSig _ _ _ := adding.pure _ _
  leaveParam _ _ _ := adding.pure _ _
  leaveTypeParam _ _ _ := adding.pure _ _
  leaveExpr _ _ _ := adding.pure _ _

theorem adds_quiet {α : Type} {x : Recording α}
    (h : ∀ log : Record, adding.rel (fun log' => ∃ new, log' = new ++ log ∧ Record.Quiet new)
      (fun log' => ∃ new, log' = new ++ log ∧ Record.Quiet new) x x) :
    Adds x fun _ new => new.Quiet :=
  fun log pending σ r hr => h log log pending σ r ⟨[], rfl, by simp [Record.Quiet]⟩ hr

/-! ## What becomes of a declaration -/

/-- The declaration only tells of names that are declared elsewhere. -/
inductive Decl.Links : Decl → Prop
  | imports (i : ImportDecl) : Links (.imports i)
  | exportAs (e : NamespaceExport) : Links (.exportAs e)
  | names (h : ExportHead) (xs : List (QIdent × Option Ident)) (m : Option Ident) :
    Links (.exports h (.names xs m))
  | star (h : ExportHead) (x : Option Ident) (m : Ident) : Links (.exports h (.star x m))

/-- The container is given the interfaces. -/
def Record.Gives (log : Record) (c : Scope) (is : Pending) : Prop := Event.emitted c is ∈ log

mutual

/-- What may become of a declaration at `s`, if containers are given interfaces as `given` says: it
keeps its kind and name, and a container keeps its declarations in order and gets the interfaces at
its end. -/
inductive Decl.Turns (given : Scope → Pending → Prop) : Scope → Decl → Decl → Prop
  | plain {s : Scope} {d d' : Decl} (hd : d.isPlain = true) (hd' : d'.isPlain = true)
    (hname : d'.name? = d.name?) : Turns given s d d'
  | link {s : Scope} {d : Decl} (hd : d.Links) : Turns given s d d
  | container {s : Scope} {d d' : Decl} {ms ms' : List Decl} {is : Pending}
    (hms : d.members? = some ms) (hd' : d.withMembers? (ms' ++ is.map .iface) = some d')
    (hgiven : given (s.enter (.decl d)) is)
    (h : Decl.TurnsAll given (s.enter (.decl d)) ms ms') : Turns given s d d'
  | inline {s : Scope} {h : ExportHead} {d d' : Decl}
    (hd : Turns given (s.enter (.decl (.exports h (.inline d)))) d d') :
    Turns given s (.exports h (.inline d)) (.exports h (.inline d'))

/-- What may become of the declarations of a list. -/
inductive Decl.TurnsAll (given : Scope → Pending → Prop) : Scope → List Decl → List Decl → Prop
  | nil {s : Scope} : TurnsAll given s [] []
  | cons {s : Scope} {d d' : Decl} {ds ds' : List Decl} (hd : Decl.Turns given s d d')
    (hds : TurnsAll given s ds ds') : TurnsAll given s (d :: ds) (d' :: ds')

end

/-! ## One declaration after the other -/

/-- The numbers of the nodes around a container that is given something. -/
def Event.ids? : Event → Option (List NodeId)
  | .emitted c _ => some c.key.2
  | .replaced _ _ _ => none

theorem Record.quiet_iff {new : Record} : new.Quiet ↔ new.filterMap Event.ids? = [] := by
  rw [List.filterMap_eq_nil_iff]
  constructor
  · intro h e he
    cases e with
    | emitted c is => exact absurd he (h c is)
    | replaced s t p => rfl
  · intro h c is he
    cases h _ he

theorem Record.gives_inj {log : Record} (h : (log.filterMap Event.ids?).Nodup) {c c' : Scope}
    {is is' : Pending} (hc : log.Gives c is) (hc' : log.Gives c' is') (hkey : c.key = c'.key) :
    is = is' := by
  induction log with
  | nil => cases hc
  | cons e log ih =>
    have hmem : ∀ {c is}, Record.Gives log c is → c.key.2 ∈ log.filterMap Event.ids? := fun h =>
      List.mem_filterMap.2 ⟨_, h, rfl⟩
    rcases List.mem_cons.1 hc with he | htail
    · subst he
      rw [List.filterMap_cons_some (f := Event.ids?) rfl, List.nodup_cons] at h
      rcases List.mem_cons.1 hc' with he' | htail'
      · cases he'
        rfl
      · exact absurd (hkey ▸ hmem htail') h.1
    · rcases List.mem_cons.1 hc' with he' | htail'
      · subst he'
        rw [List.filterMap_cons_some (f := Event.ids?) rfl, List.nodup_cons] at h
        exact absurd (hkey ▸ hmem htail) h.1
      · exact ih (h.sublist ((List.sublist_cons_self _ _).filterMap _)) htail htail'

theorem Record.gives_of_next? {later : Record} {c : Scope} {is : Pending}
    (h : later.next? c = some is) : ∃ c', c'.key = c.key ∧ later.Gives c' is := by
  obtain ⟨e, he, hgiven⟩ := List.exists_of_findSome?_eq_some h
  cases e with
  | replaced s t p => cases hgiven
  | emitted c' is' =>
    simp only [Event.given?] at hgiven
    split at hgiven
    · cases hgiven
      exact ⟨c', ‹_›, List.mem_reverse.1 he⟩
    · cases hgiven

/-- What was put on the record while the declarations `ds` at `s` were walked: containers in them were given
something, each once. -/
structure GivenIn (s : Scope) (ds : List Decl) (new : Record) : Prop where
  inside : ∀ k ∈ new.filterMap Event.ids?, ∃ d ∈ ds, d.id :: s.key.2 <:+ k
  once : (new.filterMap Event.ids?).Nodup

namespace GivenIn

variable {s : Scope} {d : Decl} {ds es : List Decl} {new more : Record}

theorem quiet (h : new.Quiet) : GivenIn s ds new := by
  rw [Record.quiet_iff] at h
  refine ⟨fun k hk => ?_, ?_⟩
  · rw [h] at hk
    cases hk
  · rw [h]
    exact .nil

theorem append (h : GivenIn s ds new) (h' : GivenIn s es more)
    (hdist : ∀ d ∈ ds, ∀ e ∈ es, d.id ≠ e.id) : GivenIn s (ds ++ es) (more ++ new) where
  inside k hk := by
    rw [List.filterMap_append, List.mem_append] at hk
    rcases hk with hk | hk
    · exact (h'.inside k hk).imp fun d hd => ⟨List.mem_append_right _ hd.1, hd.2⟩
    · exact (h.inside k hk).imp fun d hd => ⟨List.mem_append_left _ hd.1, hd.2⟩
  once := by
    rw [List.filterMap_append, List.nodup_append]
    refine ⟨h'.once, h.once, fun k hk k' hk' he => ?_⟩
    subst he
    obtain ⟨e, he, hek⟩ := h'.inside k hk
    obtain ⟨d, hd, hdk⟩ := h.inside k hk'
    have hsame := List.suffix_of_suffix_length_le hdk hek (Nat.le_refl _)
    have heq := hsame.eq_of_length rfl
    exact hdist d hd e he (List.cons.inj heq).1

theorem outwards (h : GivenIn (s.enter (.decl d)) ds new) : GivenIn s [d] new where
  inside k hk := by
    obtain ⟨m, -, hm⟩ := h.inside k hk
    exact ⟨d, .head _, (List.suffix_cons _ _).trans hm⟩
  once := h.once

theorem once_cons (h : GivenIn s ds new) (is : Pending) :
    ((Event.emitted s is :: new).filterMap Event.ids?).Nodup := by
  rw [List.filterMap_cons_some (f := Event.ids?) rfl, List.nodup_cons]
  refine ⟨fun hk => ?_, h.once⟩
  obtain ⟨m, -, hm⟩ := h.inside _ hk
  exact Nat.lt_irrefl _ hm.length_le

theorem container (h : GivenIn (s.enter (.decl d)) ds new) (is : Pending) :
    GivenIn s [d] (.emitted (s.enter (.decl d)) is :: new) := by
  refine ⟨fun k hk => ?_, h.once_cons is⟩
  rw [List.filterMap_cons_some (f := Event.ids?) rfl, List.mem_cons] at hk
  rcases hk with rfl | hk
  · exact ⟨d, .head _, List.suffix_refl _⟩
  · exact h.outwards.inside k hk

end GivenIn

/-! ## The walk -/

theorem Node.Numbered.members {n : Node} (h : n.Numbered) {ds : List Decl}
    (hds : n.members? = some ds) :
    ds.Pairwise (fun d e => d.id ≠ e.id) ∧ ∀ d ∈ ds, (Node.decl d).Numbered := by
  have hdist := h.distinct
  obtain ⟨-, -, hin⟩ := h
  rw [entries, hds] at hdist hin
  have hsl : (ds.map Node.decl).Sublist (ds.flatMap Decl.entries) := by
    clear hdist hin hds
    induction ds with
    | nil => exact .slnil
    | cons d ds ih => exact (List.singleton_sublist.2 d.mem_entries_self).append ih
  refine ⟨List.pairwise_map.1 (hdist.sublist hsl) |>.imp fun hde hid => ?_, fun d hd => ?_⟩
  · cases (hde hid).1
  · exact hin _ (hsl.subset (List.mem_map_of_mem hd))

theorem newMembers_adds (stem : String) (c : Scope) (owner : Node) (e : Edited (List Decl)) :
    Adds (e.thenStep ((recordedHooks stem).newMembers c owner)) fun _ new =>
      ∃ is, new = [.emitted c is] := by
  intro log pending σ r hr
  simp only [Edited.thenStep, StateT.run_bind, newMembers_run, pure_bind] at hr
  cases hr
  exact ⟨[.emitted c (pending.waiting c)], rfl, pending.waiting c, rfl⟩

section
variable (stem : String) (s : Scope)

@[simp] theorem recordedHooks_within (n : Node) : (recordedHooks stem).within s n = s.enter n := rfl

@[simp] theorem recordedHooks_enterDecl (d : Decl) :
    (recordedHooks stem).enterDecl s d = pure none := rfl

@[simp] theorem recordedHooks_enterFile (f : File) :
    (recordedHooks stem).enterFile s f = pure none := rfl

@[simp] theorem recordedHooks_leaveFile :
    (recordedHooks stem).leaveFile s = fun _ => pure none := rfl

@[simp] theorem File.atPlace_none (f : File) : f.atPlace none = .keep f := rfl

@[simp] theorem recordedHooks_leaveDecl :
    (recordedHooks stem).leaveDecl s = fun _ => pure none := rfl

@[simp] theorem Decl.atPlace_none (d : Decl) : d.atPlace none = .keep d := rfl

@[simp] theorem Edited.replace_keep {α : Type} (e : Edited α) (a : α) :
    e.replace (Edited.keep a).toOption = e := rfl

theorem walkDecl_plain {d : Decl} (hd : d.isPlain = true) :
    Adds (walkDecl (recordedHooks stem) s d) fun _ new => GivenIn s [d] new := by
  intro log pending σ r hr
  obtain ⟨new, hlog, hnew⟩ :=
    adds_quiet (fun log => walkDecl_related (recordedHooks_quiet stem log) hd) log pending σ r hr
  exact ⟨new, hlog, .quiet hnew⟩

theorem walkContainer_adds {d : Decl} {ds : List Decl} (hds : d.members? = some ds)
    (h : Adds (walkDecls (recordedHooks stem) (s.enter (.decl d)) ds) fun _ new =>
      GivenIn (s.enter (.decl d)) ds new) :
    Adds (walkDecl (recordedHooks stem) s d) fun _ new => GivenIn s [d] new := by
  rw [walkDecl]
  simp only [recordedHooks_within, recordedHooks_enterDecl, recordedHooks_leaveDecl, pure_bind,
    Decl.atPlace_none, Edited.replace_keep, Edited.thenStep_none]
  have hend : ∀ (owner : Node) (e : Edited (List Decl)) (new : Record),
      GivenIn (s.enter (.decl d)) ds new → ∀ (rebuild : List Decl → Decl),
      Adds (do
        let ms ← e.thenStep ((recordedHooks stem).newMembers (s.enter (.decl d)) owner)
        pure (rebuild <$> ms)) fun _ more => GivenIn s [d] (more ++ new) := by
    intro owner e new hnew rebuild
    refine (newMembers_adds stem _ owner e).bind ?_
    rintro e' _ ⟨is, rfl⟩
    exact .pure (hnew.container is)
  cases d with
  | space hd ms | module hd ms | augmentation hd ms | global hd ms =>
    cases hds
    exact h.bind fun e new hnew => hend _ e new hnew _
  | _ => cases hds

theorem walkDecl_link {d : Decl} (hd : d.Links) :
    Adds (walkDecl (recordedHooks stem) s d) fun _ new => GivenIn s [d] new := by
  rw [walkDecl]
  simp only [recordedHooks_within, recordedHooks_enterDecl, recordedHooks_leaveDecl, pure_bind,
    Decl.atPlace_none, Edited.replace_keep, Edited.thenStep_none]
  cases hd <;> exact .pure (.quiet (by simp [Record.Quiet]))

end

mutual

theorem walkDecl_adds (stem : String) (s : Scope) (d : Decl) (hd : (Node.decl d).Numbered) :
    Adds (walkDecl (recordedHooks stem) s d) fun _ new => GivenIn s [d] new := by
  cases d with
  | space h ms | module h ms | augmentation h ms | global h ms =>
    have hms := hd.members rfl
    exact walkContainer_adds stem s rfl (walkDecls_adds stem _ ms hms.1 hms.2)
  | exports h x =>
    cases x with
    | inline d =>
      obtain ⟨-, -, hin⟩ := hd
      have hd := walkDecl_adds stem (s.enter (.decl (.exports h (.inline d)))) d
        (hin _ (.head _))
      rw [walkDecl]
      simp only [recordedHooks_within, recordedHooks_enterDecl, recordedHooks_leaveDecl, pure_bind,
        Decl.atPlace_none, Edited.replace_keep, Edited.thenStep_none, walkExportee, bind_assoc]
      exact hd.bind fun e new hnew => .pure hnew.outwards
    | names xs m => exact walkDecl_link stem s (.names h xs m)
    | star a m => exact walkDecl_link stem s (.star h a m)
  | imports i => exact walkDecl_link stem s (.imports i)
  | exportAs e => exact walkDecl_link stem s (.exportAs e)
  | _ => exact walkDecl_plain stem s rfl

theorem walkDecls_adds (stem : String) (s : Scope) (ds : List Decl)
    (hdist : ds.Pairwise fun d e => d.id ≠ e.id) (hds : ∀ d ∈ ds, (Node.decl d).Numbered) :
    Adds (walkDecls (recordedHooks stem) s ds) fun _ new => GivenIn s ds new := by
  cases ds with
  | nil => exact .pure (.quiet (by simp [Record.Quiet]))
  | cons d ds =>
    rw [List.pairwise_cons] at hdist
    rw [walkDecls]
    refine (walkDecl_adds stem s d (hds d (.head _))).bind fun e new hnew => ?_
    refine (walkDecls_adds stem s ds hdist.2 fun d hd => hds d (.tail _ hd)).bind
      fun es more hmore => .pure ?_
    refine hnew.append hmore fun d' hd' => ?_
    rw [List.mem_singleton.1 hd']
    exact hdist.1

end

/-- What may become of a file or declaration. -/
def Node.Turns (given : Scope → Pending → Prop) (s : Scope) : Node → Node → Prop
  | .file f, .file g => ∃ ds' is, g.members = ds' ++ is.map .iface ∧
      given (s.enter (.file f)) is ∧ Decl.TurnsAll given (s.enter (.file f)) f.members ds'
  | .decl d, .decl d' => d.Turns given s d'
  | _, _ => False

theorem walkFile_adds (stem : String) (s : Scope) (f : File) (hf : (Node.file f).Numbered) :
    Adds (walkFile (recordedHooks stem) s f) fun _ new => (new.filterMap Event.ids?).Nodup := by
  obtain ⟨hdist, hds⟩ := hf.members rfl
  rw [walkFile]
  simp only [recordedHooks_within, recordedHooks_enterFile, recordedHooks_leaveFile, pure_bind,
    File.atPlace_none, Edited.replace_keep, Edited.thenStep_none]
  refine (walkDecls_adds stem (s.enter (.file f)) f.members hdist hds).bind fun e new hnew => ?_
  refine (newMembers_adds stem _ _ e).bind ?_
  rintro e' _ ⟨is, rfl⟩
  exact .pure (hnew.once_cons is)

/-- **No container is given interfaces twice** in a run. -/
theorem recordExtraction_once {root : Root} {f : File} (hnum : root.Numbered f) {stem : String}
    {σ σ' : Session} {file : Edited File} {log : Record}
    (hrun : (recordExtraction stem (.ofRoot root) f).run σ = .ok ((file, log), σ')) :
    (log.filterMap Event.ids?).Nodup := by
  obtain ⟨hi, hf⟩ := hnum.file
  simp only [recordExtraction, StateT.run_bind] at hrun
  obtain ⟨⟨⟨⟨file', log'⟩, pending'⟩, σ''⟩, hr, hrun⟩ := bind_eq_ok.1 hrun
  cases hrun
  obtain ⟨new, hlog, h⟩ := walkFile_adds stem (.ofRoot root) f (hf.numbered _ (.head _)) _ _ _ _ hr
  obtain rfl : log = new := by simpa using hlog
  exact h

end Ambient
