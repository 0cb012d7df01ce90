import Ambient.Proofs.Contents
import Ambient.Proofs.Rest
import Ambient.Tree.Label

/-!
# What a walk does to the declarations of a file

A step keeps the kind and the name of every declaration, except where it is given the finished members
of a container and puts others in their place.

* `Shape` says how a step treats places and the members of containers.
* `Decl.Reshaped`, `File.Reshaped`: what may become of a declaration and of a file.
* `Hooks.Reshapes`: hooks that work as a shape says; a walk with them reshapes its file
  (`walkFile_reshapes`).
-/

namespace Ambient

/-- How a step treats the places of nodes and the members of containers. -/
structure Shape where
  /-- The place around the parts of a node, if that around the node is known. -/
  within : CodePath → Node → CodePath
  /-- The place that a node gets, if that around it and its own are known. -/
  moved : CodePath → Node → CodePath → CodePath
  /-- What may become of the members of a container at a place. -/
  regroup : CodePath → List Decl → List Decl → Prop

/-- A declaration keeps its kind and its name, and gets its place. -/
structure Shape.Keeps (S : Shape) (p : CodePath) (d d' : Decl) : Prop where
  kind : d'.kind = d.kind
  name : d'.name? = d.name?
  place : d'.codePath? = d.codePath?.map (S.moved p (.decl d))

mutual

/-- What may become of a declaration inside `p`. -/
inductive Decl.Reshaped (S : Shape) : CodePath → Decl → Decl → Prop
  | plain {p : CodePath} {d d' : Decl} (hd : d.isPlain = true) (h : S.Keeps p d d') : Reshaped S p d d'
  | link {p : CodePath} {d d' : Decl} (hd : d.Links) (h : d'.contents = d.contents) : Reshaped S p d d'
  | container {p : CodePath} {d d' : Decl} {ms ms₁ ms' : List Decl} (hms : d.members? = some ms)
    (hms' : d'.members? = some ms') (h : S.Keeps p d d')
    (hall : Decl.ReshapedAll S (S.within p (.decl d)) ms ms₁)
    (hregroup : S.regroup (S.within p (.decl d)) ms₁ ms') : Reshaped S p d d'
  | inline {p : CodePath} {h h' : ExportHead} {d d' : Decl} (hh : h'.contents = h.contents)
    (hd : Reshaped S (S.within p (.decl (.exports h (.inline d)))) d d') :
    Reshaped S p (.exports h (.inline d)) (.exports h' (.inline d'))

inductive Decl.ReshapedAll (S : Shape) : CodePath → List Decl → List Decl → Prop
  | nil {p : CodePath} : ReshapedAll S p [] []
  | cons {p : CodePath} {d d' : Decl} {ds ds' : List Decl} (hd : Decl.Reshaped S p d d')
    (hds : ReshapedAll S p ds ds') : ReshapedAll S p (d :: ds) (d' :: ds')

end

structure File.Reshaped (S : Shape) (p : CodePath) (f f' : File) : Prop where
  place : f'.codePath = S.moved p (.file f) f.codePath
  members : ∃ ms₁, Decl.ReshapedAll S (S.within p (.file f)) f.members ms₁ ∧
    S.regroup (S.within p (.file f)) ms₁ f'.members

/-! ## Placing a declaration that is rebuilt -/

theorem Decl.kind_atPlace (d : Decl) (p : Option CodePath) : (d.atPlace p).value.kind = d.kind := by
  cases p <;> cases d <;> rfl

theorem Decl.name?_atPlace (d : Decl) (p : Option CodePath) : (d.atPlace p).value.name? = d.name? := by
  cases p <;> cases d <;> rfl

theorem Decl.codePath?_atPlace (d : Decl) (p : Option CodePath) :
    (d.atPlace p).value.codePath? = d.codePath?.map p.getD := by
  cases p <;> cases d <;> rfl

theorem Decl.members?_atPlace (d : Decl) (p : Option CodePath) :
    (d.atPlace p).value.members? = d.members? := by
  cases p <;> cases d <;> rfl

variable {p : CodePath} {d d' : Decl} {ds : List Decl} {n n' : Node}

theorem Decl.Links.atPlace (h : d.Links) (p : Option CodePath) : (d.atPlace p).value = d := by
  cases h <;> cases p <;> rfl

theorem Decl.Links.not_isPlain (h : d.Links) : d.isPlain = false := by
  cases h <;> rfl

theorem Decl.not_isPlain_of_members? (h : d.members? = some ds) : d.isPlain = false := by
  cases d <;> first | rfl | cases h

theorem Decl.isPlain_of_kind (h : d'.kind = d.kind) (hd : d.isPlain = true) : d'.isPlain = true := by
  cases d <;> cases hd <;> cases d' <;> first | rfl | simp [kind] at h

theorem Decl.withMembers?_keeps (h : d.withMembers? ds = some d') :
    d'.kind = d.kind ∧ d'.name? = d.name? ∧ d'.codePath? = d.codePath? ∧ d'.members? = some ds := by
  cases d <;> cases h <;> exact ⟨rfl, rfl, rfl, rfl⟩

/-! ## Nodes with their parts done -/

/-- What is known of a declaration inside `p` when its parts are done and it has not been placed yet. -/
inductive Decl.Refilled (S : Shape) : CodePath → Decl → Decl → Prop
  | plain {p : CodePath} {d d' : Decl} (hd : d.isPlain = true) (hkind : d'.kind = d.kind)
    (hname : d'.name? = d.name?) (hplace : d'.codePath? = d.codePath?) : Refilled S p d d'
  | link {p : CodePath} {d : Decl} (hd : d.Links) : Refilled S p d d
  | container {p : CodePath} {d d' : Decl} {ms ms₁ ms' : List Decl} (hms : d.members? = some ms)
    (hd' : d.withMembers? ms' = some d')
    (hall : Decl.ReshapedAll S (S.within p (.decl d)) ms ms₁)
    (hregroup : S.regroup (S.within p (.decl d)) ms₁ ms') : Refilled S p d d'
  | inline {p : CodePath} {h : ExportHead} {d d' : Decl}
    (hd : Decl.Reshaped S (S.within p (.decl (.exports h (.inline d)))) d d') :
    Refilled S p (.exports h (.inline d)) (.exports h (.inline d'))

theorem Decl.Refilled.reshaped {S : Shape} (h : d.Refilled S p d') {q : Option CodePath}
    (hq : d.codePath?.map q.getD = d.codePath?.map (S.moved p (.decl d))) :
    d.Reshaped S p (d'.atPlace q).value := by
  cases h with
  | plain hd hkind hname hplace =>
    refine .plain hd ⟨?_, ?_, ?_⟩
    · rw [kind_atPlace, hkind]
    · rw [name?_atPlace, hname]
    · rw [codePath?_atPlace, hplace, hq]
  | link hd =>
    rw [hd.atPlace]
    exact .link hd rfl
  | container hms hd' hall hreg =>
    obtain ⟨hkind, hname, hplace, hms'⟩ := withMembers?_keeps hd'
    refine .container hms ?_ ⟨?_, ?_, ?_⟩ hall hreg
    · rw [members?_atPlace, hms']
    · rw [kind_atPlace, hkind]
    · rw [name?_atPlace, hname]
    · rw [codePath?_atPlace, hplace, hq]
  | inline hd =>
    cases q with
    | none => exact .inline rfl hd
    | some q => exact .inline rfl hd

/-- A declaration that holds no others may be replaced by one of its kind, name and place. -/
theorem Decl.Reshaped.replaced {S : Shape} {d'' : Decl} (h : d.Reshaped S p d')
    (hd' : d'.isPlain = true) (hkind : d''.kind = d'.kind) (hname : d''.name? = d'.name?)
    (hplace : d''.codePath? = d'.codePath?) : d.Reshaped S p d'' := by
  cases h with
  | plain hd h =>
    exact .plain hd ⟨hkind.trans h.kind, hname.trans h.name, hplace.trans h.place⟩
  | link hd h =>
    rw [(hd.of_contents h).not_isPlain] at hd'
    cases hd'
  | container hms hms' _ _ _ =>
    rw [not_isPlain_of_members? hms'] at hd'
    cases hd'
  | inline _ hd => cases hd'

/-- What is known of a node inside `p` when its parts are done. -/
def Node.Refilled (S : Shape) (p : CodePath) : Node → Node → Prop
  | .decl d, .decl d' => d.Refilled S p d'
  | .file f, .file f' => f' = { f with members := f'.members } ∧
      ∃ ms₁, Decl.ReshapedAll S (S.within p (.file f)) f.members ms₁ ∧
        S.regroup (S.within p (.file f)) ms₁ f'.members
  | .decl _, _ | .file _, _ => False
  | _, _ => True

/-- What may become of a node inside `p`. -/
def Node.Reshaped (S : Shape) (p : CodePath) : Node → Node → Prop
  | .decl d, .decl d' => d.Reshaped S p d'
  | .file f, .file f' => f.Reshaped S p f'
  | .decl _, _ | .file _, _ => False
  | _, _ => True

variable {b : Bool} {ms : List Member} {R : Node → Node → Bool → Prop}

theorem Rebuilt.refilled {S : Shape} (hR : ∀ {m m' b}, R m m' b → m.Reshaped S (S.within p n) m')
    (hms : n.members? = none) (h : Rebuilt R n n' b) : n.Refilled S p n' := by
  obtain ⟨halike, hparts⟩ := h
  cases halike with
  | leaf hn =>
    cases n with
    | file f => cases hms
    | decl d =>
      cases d with
      | exports h e =>
        cases e with
        | inline d => cases hn
        | names xs m => exact .link (.names h xs m)
        | star x m => exact .link (.star h x m)
      | imports i => exact .link (.imports i)
      | exportAs e => exact .link (.exportAs e)
      | cls c => exact .plain rfl rfl rfl rfl
      | iface i => exact .plain rfl rfl rfl rfl
      | enum e => exact .plain rfl rfl rfl rfl
      | var v => exact .plain rfl rfl rfl rfl
      | function f => exact .plain rfl rfl rfl rfl
      | typeAlias a => exact .plain rfl rfl rfl rfl
      | _ => cases hms
    | _ => trivial
  | inline h d d' =>
    cases hparts with
    | cons hd _ => exact .inline (hR hd)
  | cls c ps p is ms hp | iface i ps is ms | enum e ms t hms ht | var v t e ht he | function f s
  | typeAlias a ps t => exact .plain rfl rfl rfl rfl
  | _ => trivial

theorem Node.Alike.members?_eq_none (h : n.Alike n') (hms : n'.classMembers? = some ms) :
    n.members? = none := by
  cases h with
  | leaf =>
    cases n with
    | file f => cases hms
    | decl d => cases d <;> first | rfl | cases hms
    | _ => rfl
  | _ => rfl

theorem Node.Refilled.withClassMembers {S : Shape} {n'' : Node} (h : n.Refilled S p n')
    (hn'' : n'.withClassMembers? ms = some n'') : n.Refilled S p n'' := by
  cases n with
  | decl d =>
    cases n' with
    | decl d' =>
      obtain ⟨d'', hd'', rfl⟩ := Option.map_eq_some_iff.1 hn''
      have hkeeps : d'.isPlain = true ∧ d''.kind = d'.kind ∧ d''.name? = d'.name? ∧
          d''.codePath? = d'.codePath? := by
        cases d' <;> cases hd'' <;> exact ⟨rfl, rfl, rfl, rfl⟩
      obtain ⟨hplain, hkind, hname, hplace⟩ := hkeeps
      cases h with
      | plain hd hkind' hname' hplace' =>
        exact .plain hd (hkind.trans hkind') (hname.trans hname') (hplace.trans hplace')
      | link hd =>
        rw [hd.not_isPlain] at hplain
        cases hplain
      | container hms hd' _ _ =>
        rw [Decl.not_isPlain_of_members? (Decl.withMembers?_keeps hd').2.2.2] at hplain
        cases hplain
      | inline hd => cases hplain
    | _ => cases h
  | file f =>
    cases n' with
    | file f' => cases hn''
    | _ => cases h
  | _ => cases n'' <;> trivial

theorem Walked.reshapedAll {S : Shape} (hR : ∀ {d d' b}, R (.decl d) (.decl d') b → d.Reshaped S p d')
    {ds' : List Decl} (h : Walked R (ds.map .decl) (ds'.map .decl) b) : Decl.ReshapedAll S p ds ds' := by
  induction ds generalizing ds' b with
  | nil =>
    cases ds' with
    | nil => exact .nil
    | cons d' ds' => cases h
  | cons d ds ih =>
    cases ds' with
    | nil => cases h
    | cons d' ds' =>
      cases h with
      | cons hd hds => exact .cons (hR hd) (ih hds)

/-! ## Hooks that reshape -/

/-- The hooks do to the nodes that they visit what the shape says. `around` tells the place around a
node. -/
structure Hooks.Reshapes {m : Type → Type} [Monad m] [LawfulMonad m] {C : Type} (L : Logic m)
    (h : Hooks m C) (visits : C → Node → Prop) (around : C → CodePath → Prop) (S : Shape) : Prop where
  idle : h.Plain
  child : ∀ {c n n'}, visits c n → n' ∈ n.children → visits (h.within c n) n'
  within : ∀ {c p n}, visits c n → around c p → around (h.within c n) (S.within p n)
  enterFile : ∀ {w c f}, visits c (.file f) → L.ends w (h.enterFile (h.within c (.file f)) f)
    fun q _ => ∀ p, around c p → q.getD f.codePath = S.moved p (.file f) f.codePath
  enterDecl : ∀ {w c d}, visits c (.decl d) → L.ends w (h.enterDecl (h.within c (.decl d)) d)
    fun q _ => ∀ p, around c p → d.codePath?.map q.getD = d.codePath?.map (S.moved p (.decl d))
  newMembers : ∀ {w c n ds} owner ds', visits c n → n.members? = some ds →
    L.ends w (h.newMembers (h.within c n) owner ds') fun r _ =>
      ∀ p, around (h.within c n) p → S.regroup p ds' (r.getD ds')
  newClassMembers : ∀ {w c n} owner ms, visits c n →
    L.ends w (h.newClassMembers (h.within c n) owner ms) fun _ _ => True
  leaveDecl : ∀ {w c d} d', visits c (.decl d) →
    L.ends w (h.leaveDecl (h.within c (.decl d)) d') fun r _ => ∀ d'', r = some d'' →
      d'.isPlain = true ∧ d''.kind = d'.kind ∧ d''.name? = d'.name? ∧ d''.codePath? = d'.codePath?
  leaveTy : ∀ {w c t} t', visits c (.ty t) →
    L.ends w (h.leaveTy (h.within c (.ty t)) t') fun _ _ => True

section
variable {m : Type → Type} [Monad m] [LawfulMonad m] {C : Type} {L : Logic m} {h : Hooks m C}
  {visits : C → Node → Prop} {around : C → CodePath → Prop} {S : Shape}

theorem Hooks.Reshapes.builds (hh : h.Reshapes L visits around S) :
    h.Builds L visits
      (fun c n q => ∀ p, around c p → n.codePath?.map q.getD = n.codePath?.map (S.moved p n))
      (fun _ _ c n n' _ => ∀ p, around c p → n.Refilled S p n')
      (fun _ _ c n n' _ => ∀ p, around c p → n.Reshaped S p n') where
  idle := hh.idle
  child := hh.child
  mono _ _ hR := hR
  plain hv hms _ hreb p hp := hreb.refilled (fun hR => hR _ (hh.within hv hp)) hms
  enterFile hv := L.imp (hh.enterFile hv) fun _ _ hq p hp => congrArg some (hq p hp)
  enterDecl hv := hh.enterDecl hv
  newMembers {w w' c n ds ds' b} owner hv hds hw := by
    refine L.imp (hh.newMembers owner ds' hv hds) fun r w'' hr n' hn' p hp => ?_
    have hin := hh.within hv hp
    have hall : Decl.ReshapedAll S (S.within p n) ds ds' := hw.reshapedAll fun hR => hR _ hin
    cases n with
    | decl d =>
      obtain ⟨d', hd', rfl⟩ := Option.map_eq_some_iff.1 hn'
      exact .container hds hd' hall (hr _ hin)
    | file f =>
      cases hds
      cases hn'
      exact ⟨rfl, ds', hall, hr _ hin⟩
    | _ => cases hds
  newClassMembers owner hv hreb hms := by
    refine L.imp (hh.newClassMembers owner _ hv) fun r w'' _ n'' hn'' p hp => ?_
    have hnone := hreb.alike.members?_eq_none hms
    exact (hreb.refilled (fun hR => hR _ (hh.within hv hp)) hnone).withClassMembers hn''
  leaveFile {w w' c f f' q b} hv hq hS p hp := by
    obtain ⟨hf', hms⟩ := hS p hp
    have hplace := Option.some.inj (hq p hp)
    cases q with
    | none => exact ⟨by rw [hf']; exact hplace, hms⟩
    | some q => exact ⟨hplace, hms⟩
  leaveDecl {w w' c d d' q b} hv hq hS := by
    refine L.imp (hh.leaveDecl (d'.atPlace q).value hv) fun r w'' hr p hp => ?_
    have hd' : d.Reshaped S p (d'.atPlace q).value := Decl.Refilled.reshaped (hS p hp) (hq p hp)
    cases r with
    | none => exact hd'
    | some d'' =>
      obtain ⟨hplain, hkind, hname, hplace⟩ := hr d'' rfl
      exact hd'.replaced hplain hkind hname hplace
  leaveTy hv _ := L.imp (hh.leaveTy _ hv) fun _ _ _ _ _ => trivial
  keep {w w' c n n' b} _ hn hS p hp := by
    cases n with
    | file f | decl d | ty t => cases hn
    | _ => cases n' <;> trivial

/-- **What a walk does to a file** is what its hooks do to lists of members. -/
theorem walkFile_reshapes (hh : h.Reshapes L visits around S) {c : C} {f : File}
    (hv : visits c (.file f)) (hp : around c p) (w : L.World) :
    L.ends w (walkFile h c f) fun e _ => f.Reshaped S p e.value :=
  L.imp (walkFile_builds hh.builds f hv w) fun _ _ hR => hR p hp

end

end Ambient
