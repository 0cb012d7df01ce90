import Ambient.Proofs.Numbering
import Ambient.Proofs.Rest

/-!
# Rewriting from the bottom up

A step takes a tree apart and puts it together again. When the parts of a node are done it may put other
declarations into a container, other members into a class, interface or object type, and another type in
the place of a type. A `Rewriting` tells which, and `Node.Rewritten` what then becomes of a node. Nothing
else is added, dropped or moved.

* `InBlocks`: a list with each element replaced in place.
* `walkFile_rewritten`: a walk rewrites a file as its hooks say.
* `Node.Rewritten.plain`, `Node.Rewritten.of_plain`: nodes of most kinds only get other parts.
-/

namespace Ambient

/-! ## Lists with blocks in the place of elements -/

/-- In the place of each element of the first list, the second has a block that `R` allows. -/
inductive InBlocks {α : Type} (R : α → List α → Prop) : List α → List α → Prop
  | nil : InBlocks R [] []
  | cons {a : α} {block as bs : List α} (h : R a block) (hs : InBlocks R as bs) :
    InBlocks R (a :: as) (block ++ bs)

namespace InBlocks

variable {α : Type} {R R' : α → List α → Prop} {as bs : List α}

theorem mono (hR : ∀ {a block}, a ∈ as → R a block → R' a block) (h : InBlocks R as bs) :
    InBlocks R' as bs := by
  induction h with
  | nil => exact .nil
  | cons ha _ ih => exact .cons (hR (.head _) ha) (ih fun hmem => hR (.tail _ hmem))

theorem singletons (h : ∀ a ∈ as, R a [a]) : InBlocks R as as := by
  induction as with
  | nil => exact .nil
  | cons a as ih => exact .cons (h a (.head _)) (ih fun b hb => h b (.tail _ hb))

theorem exists_of_mem (h : InBlocks R as bs) {b : α} (hb : b ∈ bs) :
    ∃ a ∈ as, ∃ block, R a block ∧ b ∈ block := by
  induction h with
  | nil => cases hb
  | @cons a block as bs ha _ ih =>
    rcases List.mem_append.1 hb with hb | hb
    · exact ⟨a, .head _, block, ha, hb⟩
    · obtain ⟨a', ha', hblock⟩ := ih hb
      exact ⟨a', .tail _ ha', hblock⟩

theorem exists_block (h : InBlocks R as bs) {a : α} (ha : a ∈ as) : ∃ block, R a block ∧ block ⊆ bs := by
  induction h with
  | nil => cases ha
  | @cons a' block as bs hR _ ih =>
    rcases List.mem_cons.1 ha with rfl | ha
    · exact ⟨block, hR, List.subset_append_left _ _⟩
    · obtain ⟨block', hR', hsub⟩ := ih ha
      exact ⟨block', hR', List.subset_append_of_subset_right _ hsub⟩

end InBlocks

/-! ## Rewriting nodes -/

/-- What a step does when the parts of a node are done, as seen from inside the node. -/
structure Rewriting (C : Type) where
  /-- The context that a node and its parts see. -/
  within : C → Node → C
  /-- To the declarations of a container. -/
  decls : C → List Decl → List Decl → Prop
  /-- To the members of a class, interface or object type. -/
  members : C → List Member → List Member → Prop
  /-- To a type. -/
  ty : C → Ty → Ty → Prop

/-- The node has other members, as `P` says. A node without members stays. -/
inductive Node.Refitted (P : List Member → List Member → Prop) : Node → Node → Prop
  | members {n n' : Node} {ms ms' : List Member} (hms : n.classMembers? = some ms) (h : P ms ms')
    (hn' : n.withClassMembers? ms' = some n') : Refitted P n n'
  | other {n : Node} (h : n.classMembers? = none) : Refitted P n n

/-- Another type is in the place of the type, as `P` says. A node of another kind stays. -/
inductive Node.Left (P : Ty → Ty → Prop) : Node → Node → Prop
  | ty {t t' : Ty} (h : P t t') : Left P (.ty t) (.ty t')
  | other {n : Node} (h : ∀ t, n ≠ .ty t) : Left P n n

/-- What becomes of a node: that of its parts, and then what `W` says. -/
inductive Node.Rewritten {C : Type} (W : Rewriting C) : C → Node → Node → Prop
  | container {c : C} {n n' : Node} {ds ds₁ ds₂ : List Decl} (hds : n.members? = some ds)
    (hlength : ds₁.length = ds.length)
    (h : ∀ (i : Nat) (d d' : Decl), ds[i]? = some d → ds₁[i]? = some d' →
      Rewritten W (W.within c n) (.decl d) (.decl d'))
    (hnew : W.decls (W.within c n) ds₁ ds₂) (hn' : n.withMembers? ds₂ = some n') : Rewritten W c n n'
  | rebuilt {c : C} {n n₁ n₂ n' : Node} (hn : n.members? = none) (halike : n.Alike n₁)
    (hlength : n₁.children.length = n.children.length)
    (h : ∀ (i : Nat) (m m' : Node), n.children[i]? = some m → n₁.children[i]? = some m' →
      Rewritten W (W.within c n) m m')
    (hmembers : n₁.Refitted (W.members (W.within c n)) n₂) (hleft : n₂.Left (W.ty (W.within c n)) n') :
    Rewritten W c n n'

/-- What is known of a node before it is left. -/
inductive Node.Reassembled {C : Type} (W : Rewriting C) (c : C) : Node → Node → Prop
  | container {n n' : Node} {ds : List Decl} (hds : n.members? = some ds) (h : n.Rewritten W c n') :
    Reassembled W c n n'
  | rebuilt {n n₁ n₂ : Node} (hn : n.members? = none) (halike : n.Alike n₁)
    (hlength : n₁.children.length = n.children.length)
    (h : ∀ (i : Nat) (m m' : Node), n.children[i]? = some m → n₁.children[i]? = some m' →
      m.Rewritten W (W.within c n) m')
    (hmembers : n₁.Refitted (W.members (W.within c n)) n₂) : Reassembled W c n n₂

theorem Node.Alike.classMembers?_eq_none {n n' : Node} (h : n.Alike n') (hn : n.classMembers? = none) :
    n'.classMembers? = none := by
  cases h with
  | leaf => exact hn
  | object | cls | iface => cases hn
  | _ => rfl

variable {d d' : Decl} {x : ExportHead} {ds : List Decl} {ms : List Member}

theorem Node.members?_of_withMembers? {n n' : Node} (h : n.withMembers? ds = some n') :
    n'.members? = some ds := by
  cases n with
  | file f =>
    cases h
    rfl
  | decl d => cases d <;> cases h <;> rfl
  | _ => cases h

theorem Node.classMembers?_of_withClassMembers? {n n' : Node} (h : n.withClassMembers? ms = some n') :
    n'.classMembers? = some ms := by
  cases n with
  | decl d => cases d <;> cases h <;> rfl
  | ty t => cases t <;> cases h <;> rfl
  | _ => cases h

theorem Node.children_of_withClassMembers? {n n' : Node} {ms' : List Member}
    (hms : n.classMembers? = some ms) (h : n.withClassMembers? ms' = some n') :
    ∃ others, n.children = others ++ ms.map .member ∧ n'.children = others ++ ms'.map .member := by
  cases n with
  | decl d => cases d <;> cases hms <;> cases h <;> exact ⟨_, rfl, rfl⟩
  | ty t => cases t <;> cases hms <;> cases h <;> exact ⟨[], rfl, rfl⟩
  | _ => cases h

theorem Node.withClassMembers?_ne_ty {n n' : Node} (h : n.withClassMembers? ms = some n')
    (hn : ∀ t, n ≠ .ty t) : ∀ t, n' ≠ .ty t := by
  cases n with
  | decl d => cases d <;> cases h <;> intro t ht <;> cases ht
  | ty t => exact absurd rfl (hn t)
  | _ => cases h

section
variable {C : Type} {W : Rewriting C} {c : C} {n n' : Node}

variable {P : List Member → List Member → Prop}

theorem Node.Refitted.ne_ty (h : n.Refitted P n') (hn : ∀ t, n ≠ .ty t) : ∀ t, n' ≠ .ty t := by
  cases h with
  | members _ _ hn' => exact Node.withClassMembers?_ne_ty hn' hn
  | other => exact hn

theorem Node.Refitted.members?_eq_none (h : n.Refitted P n') (hn : n.members? = none) :
    n'.members? = none := by
  cases h with
  | members _ _ hn' => exact Node.members?_of_classMembers? (Node.classMembers?_of_withClassMembers? hn')
  | other => exact hn

theorem Node.Refitted.eq (h : n.Refitted (fun ms ms' => ms' = ms) n') : n' = n := by
  cases h with
  | members hms heq hn' => exact Node.withClassMembers?_eq hms (heq ▸ hn')
  | other => rfl

theorem Node.Alike.ne_ty (h : n.Alike n') (hn : ∀ t, n ≠ .ty t) : ∀ t, n' ≠ .ty t := by
  cases h with
  | leaf => exact hn
  | _ => first | exact absurd rfl (hn _) | exact fun _ ht => by cases ht

theorem Node.Reassembled.rewritten (h : n.Reassembled W c n') (hn : ∀ t, n ≠ .ty t) : n.Rewritten W c n' := by
  cases h with
  | container _ h => exact h
  | rebuilt hmems halike hlen h hrefit =>
    exact .rebuilt hmems halike hlen h hrefit (.other (hrefit.ne_ty (halike.ne_ty hn)))

theorem Node.Reassembled.leave {t t' t'' : Ty} (h : (Node.ty t).Reassembled W c (.ty t'))
    (ht : W.ty (W.within c (.ty t)) t' t'') : (Node.ty t).Rewritten W c (.ty t'') := by
  cases h with
  | container hds => cases hds
  | rebuilt hmems halike hlen h hrefit => exact .rebuilt hmems halike hlen h hrefit (.ty ht)

end

section
variable {C : Type} {W : Rewriting C} {c : C} {n n' : Node}

theorem Node.Rewritten.plain (h : n.Rewritten W c n') (hds : n.members? = none) (hms : n.classMembers? = none)
    (hty : ∀ t, n ≠ .ty t) : n.Alike n' ∧ n'.children.length = n.children.length ∧
      ∀ (i : Nat) (m m' : Node), n.children[i]? = some m → n'.children[i]? = some m' →
        m.Rewritten W (W.within c n) m' := by
  cases h with
  | container hds' => cases hds.symm.trans hds'
  | rebuilt _ halike hlen h hmems hleft =>
    cases hmems with
    | members hms' => cases (halike.classMembers?_eq_none hms).symm.trans hms'
    | other =>
      cases hleft with
      | ty => exact absurd rfl (halike.ne_ty hty _)
      | other => exact ⟨halike, hlen, h⟩

theorem Node.Rewritten.members (h : n.Rewritten W c n') (hds : n.members? = some ds) :
    ∃ ds₁ ds₂, ds₁.length = ds.length ∧
      (∀ (i : Nat) (d d' : Decl), ds[i]? = some d → ds₁[i]? = some d' →
        (Node.decl d).Rewritten W (W.within c n) (.decl d')) ∧
      W.decls (W.within c n) ds₁ ds₂ ∧ n.withMembers? ds₂ = some n' := by
  cases h with
  | container hds' hlen h hnew hn' =>
    cases hds.symm.trans hds'
    exact ⟨_, _, hlen, h, hnew, hn'⟩
  | rebuilt hn => cases hds.symm.trans hn

theorem Node.Rewritten.members?_eq_none (h : n.Rewritten W c n') (hn : n.members? = none) :
    n'.members? = none := by
  cases h with
  | container hds => cases hn.symm.trans hds
  | rebuilt _ halike _ _ hmems hleft =>
    cases hleft with
    | ty => rfl
    | other => exact hmems.members?_eq_none (halike.members?_eq.trans hn)

theorem Node.Rewritten.exportee (h : (Node.decl (.exports x (.inline d))).Rewritten W c n') :
    ∃ d', n' = .decl (.exports x (.inline d')) ∧
      (Node.decl d).Rewritten W (W.within c (.decl (.exports x (.inline d)))) (.decl d') := by
  obtain ⟨halike, -, hparts⟩ := h.plain rfl rfl fun _ h => by cases h
  cases halike with
  | leaf hleaf => cases hleaf
  | inline _ _ d' => exact ⟨d', rfl, hparts 0 _ _ rfl rfl⟩

theorem Node.Rewritten.of_plain (h : n.Rewritten W c n') (hds : n'.members? = none)
    (hms : n'.classMembers? = none) (hty : ∀ t, n' ≠ .ty t) : n.Alike n' ∧
      n'.children.length = n.children.length ∧
      ∀ (i : Nat) (m m' : Node), n.children[i]? = some m → n'.children[i]? = some m' →
        m.Rewritten W (W.within c n) m' := by
  cases h with
  | container _ _ _ _ hn' => cases hds.symm.trans (Node.members?_of_withMembers? hn')
  | rebuilt _ halike hlen h hmems hleft =>
    cases hleft with
    | ty => exact absurd rfl (hty _)
    | other =>
      cases hmems with
      | members _ _ hn' => cases hms.symm.trans (Node.classMembers?_of_withClassMembers? hn')
      | other => exact ⟨halike, hlen, h⟩

theorem Node.Rewritten.of_exportee (h : n.Rewritten W c (.decl (.exports x (.inline d')))) :
    ∃ d, n = .decl (.exports x (.inline d)) ∧ (Node.decl d).Rewritten W (W.within c n) (.decl d') := by
  obtain ⟨halike, -, hparts⟩ := h.of_plain rfl rfl fun _ h => by cases h
  cases halike with
  | leaf hleaf => cases hleaf
  | inline _ d => exact ⟨d, rfl, hparts 0 _ _ rfl rfl⟩

theorem Node.Rewritten.var {v : VarDecl} (h : (Node.decl (.var v)).Rewritten W c n') :
    ∃ v', n' = .decl (.var v') := by
  cases (h.plain rfl rfl fun _ h => by cases h).1 <;> exact ⟨_, rfl⟩

theorem Node.Rewritten.of_var {v' : VarDecl} (h : n.Rewritten W c (.decl (.var v'))) :
    ∃ v, n = .decl (.var v) := by
  cases (h.of_plain rfl rfl fun _ h => by cases h).1 <;> exact ⟨_, rfl⟩

end

/-! ## What holds throughout a node -/

/-- `P` holds of the node and of all that is in it. -/
inductive Node.Throughout (P : Node → Prop) : Node → Prop
  | mk {n : Node} (here : P n) (inside : ∀ m ∈ n.children, Throughout P m) : Throughout P n

section
variable {P : Node → Prop} {n : Node}

theorem Node.Throughout.here (h : n.Throughout P) : P n := by
  cases h with
  | mk here => exact here

theorem Node.Throughout.inside (h : n.Throughout P) {m : Node} (hm : m ∈ n.children) : m.Throughout P := by
  cases h with
  | mk _ inside => exact inside m hm

end

theorem forall_mem_of_getElem? {α β : Type} {as : List α} {bs : List β} {Q : β → Prop}
    (hlen : bs.length = as.length)
    (h : ∀ (i : Nat) (a : α) (b : β), as[i]? = some a → bs[i]? = some b → Q b) : ∀ b ∈ bs, Q b := by
  intro b hb
  obtain ⟨i, hi, rfl⟩ := List.mem_iff_getElem.1 hb
  have hi' : i < as.length := hlen ▸ hi
  exact h i as[i] bs[i] (List.getElem?_eq_getElem hi') (List.getElem?_eq_getElem hi)

/-! ## Walks -/

/-- The hooks act as `W` says, wherever the walk comes by. -/
structure Hooks.Acts {m : Type → Type} [Monad m] [LawfulMonad m] {C : Type} (L : Logic m) (h : Hooks m C)
    (visits : C → Node → Prop) (W : Rewriting C) : Prop where
  idle : h.Plain
  within : W.within = h.within
  child : ∀ {c n n'}, visits c n → n' ∈ n.children → visits (h.within c n) n'
  enterFile : ∀ {w c f}, L.ends w (h.enterFile c f) fun p _ => p = none
  enterDecl : ∀ {w c d}, L.ends w (h.enterDecl c d) fun p _ => p = none
  leaveDecl : ∀ {w c d}, L.ends w (h.leaveDecl c d) fun r _ => r = none
  newMembers : ∀ {w c n ds ds'} owner, visits c n → n.members? = some ds → ds'.length = ds.length →
    (∀ (i : Nat) (d d' : Decl), ds[i]? = some d → ds'[i]? = some d' →
      (Node.decl d).Rewritten W (h.within c n) (.decl d')) →
    L.ends w (h.newMembers (h.within c n) owner ds') fun r _ => W.decls (h.within c n) ds' (r.getD ds')
  newClassMembers : ∀ {w c n ms} owner, visits c n →
    L.ends w (h.newClassMembers (h.within c n) owner ms) fun r _ => W.members (h.within c n) ms (r.getD ms)
  leaveTy : ∀ {w c t t'}, visits c (.ty t) → (Node.ty t).Reassembled W c (.ty t') →
    L.ends w (h.leaveTy (h.within c (.ty t)) t') fun r _ => W.ty (h.within c (.ty t)) t' (r.getD t')

theorem Walked.getElem?_map {R : Node → Node → Bool → Prop} {ds' : List Decl} {b : Bool}
    (h : Walked R (ds.map .decl) (ds'.map .decl) b) {i : Nat} (hd : ds[i]? = some d)
    (hd' : ds'[i]? = some d') : ∃ b', R (.decl d) (.decl d') b' :=
  h.getElem? (i := i) (by simp [hd]) (by simp [hd'])

section
variable {m : Type → Type} [Monad m] [LawfulMonad m] {C : Type} {L : Logic m} {h : Hooks m C}
  {visits : C → Node → Prop} {W : Rewriting C}

theorem Hooks.Acts.builds (hh : h.Acts L visits W) :
    h.Builds L visits (fun _ _ p => p = none) (fun _ _ c n n' _ => n.Reassembled W c n')
      (fun _ _ c n n' _ => n.Rewritten W c n') where
  idle := hh.idle
  child := hh.child
  mono _ _ hR := hR
  plain {w w' c n n' b} _ hmems hclass hbuilt := by
    rw [← hh.within] at hbuilt
    refine .rebuilt hmems hbuilt.alike hbuilt.parts.length_eq (fun i m m' hm hm' => ?_)
      (.other (hbuilt.alike.classMembers?_eq_none hclass))
    exact (hbuilt.parts.getElem? hm hm').elim fun _ hR => hR
  enterFile _ := hh.enterFile
  enterDecl _ := hh.enterDecl
  newMembers {w w' c n ds ds' b} owner hv hds hwlk := by
    have hlen : ds'.length = ds.length := by simpa using hwlk.length_eq
    have hparts : ∀ (i : Nat) (d d' : Decl), ds[i]? = some d → ds'[i]? = some d' →
        (Node.decl d).Rewritten W (h.within c n) (.decl d') :=
      fun i d d' hd hd' => (hwlk.getElem?_map hd hd').elim fun _ hR => hR
    refine L.imp (hh.newMembers owner hv hds hlen hparts) fun r _ hr {n'} hn' => ?_
    rw [← hh.within] at hr hparts
    exact .container hds (.container hds hlen hparts hr hn')
  newClassMembers {w w' c n n' ms b} owner hv hbuilt hms := by
    have hmems : n.members? = none :=
      hbuilt.alike.members?_eq.symm.trans (Node.members?_of_classMembers? hms)
    refine L.imp (hh.newClassMembers owner hv) fun r _ hr {n''} hn'' => ?_
    rw [← hh.within] at hr hbuilt
    refine .rebuilt hmems hbuilt.alike hbuilt.parts.length_eq (fun i m m' hm hm' => ?_)
      (.members hms hr hn'')
    exact (hbuilt.parts.getElem? hm hm').elim fun _ hR => hR
  leaveFile _ hp hS := by
    subst hp
    exact hS.rewritten fun t ht => by cases ht
  leaveDecl _ hp hS := by
    subst hp
    refine L.imp hh.leaveDecl fun r _ hr => ?_
    subst hr
    exact hS.rewritten fun t ht => by cases ht
  leaveTy {w w' c t t' b} hv hS := by
    refine L.imp (hh.leaveTy hv hS) fun r _ hr => hS.leave ?_
    rw [hh.within]
    exact hr
  keep {w w' c n n' b} _ hn hS := by
    refine hS.rewritten fun t ht => ?_
    subst ht
    cases hn

/-- **A walk rewrites a file as its hooks say.** -/
theorem walkFile_rewritten (hh : h.Acts L visits W) {c : C} (f : File) (hv : visits c (.file f)) (w : L.World) :
    L.ends w (walkFile h c f) fun e _ => (Node.file f).Rewritten W c (.file e.value) :=
  walkFile_builds hh.builds f hv w

end

/-- The rewriting that only replaces types. -/
def Rewriting.ofTypes {C : Type} (within : C → Node → C) (P : C → Ty → Ty → Prop) : Rewriting C where
  within := within
  decls _ ds ds' := ds' = ds
  members _ ms ms' := ms' = ms
  ty := P

theorem leaveTy_acts {m : Type → Type} [Monad m] [LawfulMonad m] {C : Type} (L : Logic m)
    {within : C → Node → C} {g : C → Ty → m (Option Ty)} {visits : C → Node → Prop} {P : C → Ty → Ty → Prop}
    (hchild : ∀ {c n n'}, visits c n → n' ∈ n.children → visits (within c n) n')
    (hty : ∀ {w c t} t', visits c (.ty t) →
      L.ends w (g (within c (.ty t)) t') fun r _ => P (within c (.ty t)) t' (r.getD t')) :
    Hooks.Acts L { Hooks.idle within with leaveTy := g } visits (.ofTypes within P) where
  idle := {}
  within := rfl
  child := hchild
  enterFile := L.pure rfl
  enterDecl := L.pure rfl
  leaveDecl := L.pure rfl
  newMembers _ _ _ _ _ := L.pure rfl
  newClassMembers _ _ := L.pure rfl
  leaveTy hv _ := hty _ hv

end Ambient
