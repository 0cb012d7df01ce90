import Ambient.Proofs.Rebuild

/-!
# Walks that change nothing

A node is told by its own data and the nodes directly inside it (`Node.Alike.eq`). So a walk whose hooks
find nothing to do wherever they come by gives back the file that it was given (`Hooks.Rests.walkFile`).
-/

namespace Ambient

/-! ## A node is told by its parts -/

section
variable {α : Type} {f : α → Node} (hf : Function.Injective f) {ns ms : List Node}
include hf

theorem toList_map_inj {a b : Option α} : a.toList.map f = b.toList.map f ↔ a = b := by
  cases a <;> cases b <;> simp [hf.eq_iff]

theorem toList_map_append_inj {a b : Option α} (h : a.isSome = b.isSome) :
    a.toList.map f ++ ns = b.toList.map f ++ ms ↔ a = b ∧ ns = ms := by
  cases a <;> cases b <;> simp_all [hf.eq_iff]

theorem map_append_inj {as bs : List α} (hns : ∀ a, f a ∉ ns) (hms : ∀ a, f a ∉ ms) :
    as.map f ++ ns = bs.map f ++ ms ↔ as = bs ∧ ns = ms := by
  induction as generalizing bs with
  | nil =>
    cases bs with
    | nil => simp
    | cons b bs => simpa using fun h : ns = _ => hns b (h ▸ .head _)
  | cons a as ih =>
    cases bs with
    | nil => simpa using fun h : _ = ms => hms a (h ▸ .head _)
    | cons b bs => simp [hf.eq_iff, ih, and_assoc]

end

theorem Node.ty_injective : Function.Injective Node.ty := fun _ _ => Node.ty.inj

theorem Node.tparam_injective : Function.Injective Node.tparam := fun _ _ => Node.tparam.inj

theorem Node.param_injective : Function.Injective Node.param := fun _ _ => Node.param.inj

section
variable {ns ms : List Node}

mutual

theorem Expr.nodes_append_inj {e e' : Expr} (h : e.bare = e'.bare) {ns ms : List Node} :
    e.nodes ++ ns = e'.nodes ++ ms ↔ e = e' ∧ ns = ms := by
  cases e <;> cases e' <;> simp only [bare, reduceCtorEq, call.injEq, unary.injEq, binary.injEq, cast.injEq,
    arrayOf.injEq] at h
  case call.call => simp [nodes, nodes_append_inj h.1, nodesList_append_inj h.2, and_assoc]
  case unary.unary => simp [nodes, nodes_append_inj h.2, h.1]
  case binary.binary => simp [nodes, nodes_append_inj h.1, nodes_append_inj h.2.2, h.2.1, and_assoc]
  case cast.cast => simp [nodes, nodes_append_inj h.1, and_assoc]
  case arrayOf.arrayOf => simp [nodes, nodes_append_inj h]
  all_goals simp_all [nodes]

theorem Expr.nodesList_append_inj {es es' : List Expr} (h : Expr.bareList es = Expr.bareList es')
    {ns ms : List Node} : Expr.nodesList es ++ ns = Expr.nodesList es' ++ ms ↔ es = es' ∧ ns = ms := by
  cases es <;> cases es' <;> simp only [bareList, reduceCtorEq, List.cons.injEq] at h
  case nil.nil => simp [nodesList]
  case cons.cons => simp [nodesList, nodes_append_inj h.1, nodesList_append_inj h.2, and_assoc]

end

theorem Expr.nodes_inj {e e' : Expr} (h : e.bare = e'.bare) : e.nodes = e'.nodes ↔ e = e' := by
  simpa using @nodes_append_inj e e' h [] []

theorem Expr.nodesOption_append_inj {e e' : Option Expr} (h : e.map Expr.bare = e'.map Expr.bare) :
    Expr.nodesOption e ++ ns = Expr.nodesOption e' ++ ms ↔ e = e' ∧ ns = ms := by
  cases e <;> cases e' <;> simp only [Option.map_none, Option.map_some, reduceCtorEq, Option.some.injEq] at h
  case none.none => simp [nodesOption]
  case some.some => simp [nodesOption, nodes_append_inj h]

theorem Expr.nodesOption_inj {e e' : Option Expr} (h : e.map Expr.bare = e'.map Expr.bare) :
    Expr.nodesOption e = Expr.nodesOption e' ↔ e = e' := by
  simpa using @nodesOption_append_inj [] [] e e' h

theorem EnumMember.nodes_append_inj {xs xs' : List EnumMember} (h : xs.map bare = xs'.map bare) :
    (xs.flatMap fun x => Expr.nodesOption x.expr) ++ ns = (xs'.flatMap fun x => Expr.nodesOption x.expr) ++ ms ↔
      xs = xs' ∧ ns = ms := by
  induction xs generalizing xs' with
  | nil => simp_all
  | cons x xs ih =>
    cases xs' with
    | nil => cases h
    | cons x' xs' =>
      obtain ⟨i, y, e⟩ := x
      obtain ⟨i', y', e'⟩ := x'
      simp only [List.map_cons, bare, List.cons.injEq, mk.injEq] at h
      simp [ih h.2, Expr.nodesOption_append_inj h.1.2.2, h.1, and_assoc]

end

theorem TupleElem.eq_of_parts {es es' : List TupleElem} (hlabs : es'.map (·.label) = es.map (·.label))
    (h : es'.map (fun e => Node.ty e.tpe) = es.map fun e => Node.ty e.tpe) : es' = es := by
  induction es generalizing es' with
  | nil => exact List.map_eq_nil_iff.1 h
  | cons e es ih =>
    cases es' with
    | nil => cases h
    | cons e' es' =>
      rw [List.map_cons, List.map_cons, List.cons.injEq] at h hlabs
      obtain ⟨l, t⟩ := e
      obtain ⟨l', t'⟩ := e'
      obtain rfl : l' = l := hlabs.1
      obtain rfl : t' = t := Node.ty.inj h.1
      rw [ih hlabs.2 h.2]

/-- **A node is told by its own data and the nodes directly inside it.** -/
theorem Node.Alike.eq {n n' : Node} (h : n.Alike n') (hparts : n'.children = n.children) : n' = n := by
  cases h
  case tuple hlabs => rw [TupleElem.eq_of_parts hlabs hparts]
  case' method m _ | property m _ _ _ _ | mapped m _ _ _ _ => cases m
  all_goals simp_all [children, childrenOfDecl, childrenOfMember, childrenOfTy, toList_map_inj ty_injective,
    toList_map_append_inj ty_injective, map_append_inj ty_injective, map_append_inj tparam_injective,
    map_append_inj param_injective, List.map_inj_right fun _ _ => Node.ty.inj,
    List.map_inj_right fun _ _ => Node.member.inj, Expr.nodesOption_inj, EnumMember.nodes_append_inj]

/-! ## Hooks with nothing to do -/

/-- The hooks find nothing to do at the nodes that are visited. -/
structure Hooks.Rests {m : Type → Type} [Monad m] [LawfulMonad m] {C : Type} (L : Logic m)
    (h : Hooks m C) (visits : C → Node → Prop) : Prop where
  idle : h.Plain
  child : ∀ {c n n'}, visits c n → n' ∈ n.children → visits (h.within c n) n'
  enterFile : ∀ {w c f}, visits c (.file f) →
    L.ends w (h.enterFile (h.within c (.file f)) f) fun p _ => p = none
  enterDecl : ∀ {w c d}, visits c (.decl d) →
    L.ends w (h.enterDecl (h.within c (.decl d)) d) fun p _ => p = none
  newMembers : ∀ {w c n ds} owner, visits c n → n.members? = some ds →
    L.ends w (h.newMembers (h.within c n) owner ds) fun r _ => r = none
  newClassMembers : ∀ {w c n ms} owner, visits c n → n.classMembers? = some ms →
    L.ends w (h.newClassMembers (h.within c n) owner ms) fun r _ => r = none
  leaveDecl : ∀ {w c d}, visits c (.decl d) →
    L.ends w (h.leaveDecl (h.within c (.decl d)) d) fun r _ => r = none
  leaveTy : ∀ {w c t}, visits c (.ty t) →
    L.ends w (h.leaveTy (h.within c (.ty t)) t) fun r _ => r = none

theorem Walked.eq {ns ns' : List Node} {b : Bool}
    (h : Walked (fun n n' b => n' = n ∧ b = false) ns ns' b) : ns' = ns ∧ b = false := by
  induction h with
  | nil => exact ⟨rfl, rfl⟩
  | cons h _ ih =>
    obtain ⟨rfl, rfl⟩ := h
    obtain ⟨rfl, rfl⟩ := ih
    exact ⟨rfl, rfl⟩

theorem Rebuilt.eq {n n' : Node} {b : Bool}
    (h : Rebuilt (fun n n' b => n' = n ∧ b = false) n n' b) : n' = n ∧ b = false := by
  obtain ⟨hparts, hb⟩ := h.parts.eq
  exact ⟨h.alike.eq hparts, hb⟩

section
variable {m : Type → Type} [Monad m] [LawfulMonad m] {C : Type} {L : Logic m} {h : Hooks m C}
  {visits : C → Node → Prop}

theorem Hooks.idle_rests (L : Logic m) (within : C → Node → C)
    (hchild : ∀ {c n n'}, visits c n → n' ∈ n.children → visits (within c n) n') :
    (Hooks.idle within).Rests L visits where
  idle := {}
  child := hchild
  enterFile _ := L.pure rfl
  enterDecl _ := L.pure rfl
  newMembers _ _ _ := L.pure rfl
  newClassMembers _ _ _ := L.pure rfl
  leaveDecl _ := L.pure rfl
  leaveTy _ := L.pure rfl

theorem Hooks.Rests.builds (hh : h.Rests L visits) :
    h.Builds L visits (fun _ _ p => p = none) (fun _ _ _ n n' b => n' = n ∧ b = false)
      fun _ _ _ n n' b => n' = n ∧ b = false where
  idle := hh.idle
  child := hh.child
  mono _ _ hR := hR
  plain _ _ _ hbuilt := hbuilt.eq
  enterFile := hh.enterFile
  enterDecl := hh.enterDecl
  newMembers owner hv hds hwlk := by
    obtain ⟨hmap, rfl⟩ := hwlk.eq
    obtain rfl := (List.map_inj_right fun _ _ h => Node.decl.inj h).1 hmap
    refine L.imp (hh.newMembers owner hv hds) fun r _ hr => ?_
    subst hr
    exact fun hn' => ⟨Node.withMembers?_eq hds hn', rfl⟩
  newClassMembers owner hv hbuilt hms := by
    obtain ⟨rfl, rfl⟩ := hbuilt.eq
    refine L.imp (hh.newClassMembers owner hv hms) fun r _ hr => ?_
    subst hr
    exact fun hn' => ⟨Node.withClassMembers?_eq hms hn', rfl⟩
  leaveFile _ hp hS := by
    subst hp
    exact hS
  leaveDecl hv hp hS := by
    obtain ⟨hd, rfl⟩ := hS
    cases hd
    subst hp
    refine L.imp (hh.leaveDecl hv) fun r _ hr => ?_
    subst hr
    exact ⟨rfl, rfl⟩
  leaveTy hv hS := by
    obtain ⟨ht, rfl⟩ := hS
    cases ht
    refine L.imp (hh.leaveTy hv) fun r _ hr => ?_
    subst hr
    exact ⟨rfl, rfl⟩
  keep _ _ hS := hS

/-- **A walk whose hooks find nothing to do gives back the file.** -/
theorem Hooks.Rests.walkFile (hh : h.Rests L visits) {c : C} (f : File) (hv : visits c (.file f))
    (w : L.World) : L.ends w (walkFile h c f) fun e _ => e = .keep f := by
  refine L.imp (walkFile_builds hh.builds f hv w) fun e _ he => ?_
  obtain ⟨value, changed⟩ := e
  obtain ⟨hvalue, hchg⟩ := he
  cases hvalue
  subst hchg
  rfl

end

end Ambient
