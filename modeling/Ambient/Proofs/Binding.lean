import Ambient.Pass.Substitute
import Ambient.Proofs.Becomes
import Ambient.Proofs.Normal

/-!
# Substitution under binders

Names of types are bound by type parameters, by the keys of mapped types and by `infer`. Where a name is
replaced by a type, two things must be seen to: a name that is bound means something else and is left
alone, and no name of the type that is put in may be bound where it is put (`Node.Substituted`).

* `Node.Leads`: the way from a node to one inside it, with the nodes that it goes through.
* `Node.Free`: the names that are mentioned and not bound on the way.
* `Node.Substituted.unique`: there is one way to replace names so.
* `Node.Substituted.free`: what is free afterwards.
* `Substitution.inSignature_substituted`: when a walk that replaces types does just that. It knows type
  parameters and no other binders, and does not look at the names of what it puts in.
-/

namespace Ambient

/-! ## Bound names -/

/-- The node has an `infer x` that belongs to a conditional type around it: the predicate of a conditional
type keeps its own. -/
inductive Node.Infers (x : Ident) : Node → Prop
  | infer {p : TypeParam} (h : p.name = x) : Infers x (.ty (.infer p))
  | part {n m : Node} {k : Nat} (hm : n.children[k]? = some m)
    (hk : n.isConditional = true → k ≠ 0) (h : Infers x m) : Infers x n

/-- The node binds the name in its part number `k`: by a type parameter, as the key of a mapped type, or,
in the first branch of a conditional type, by an `infer` of its predicate. -/
def Node.Binds (n : Node) (k : Nat) (x : Ident) : Prop :=
  x ∈ n.tparams.map (·.name) ∨ n.typeKey? = some x ∨
    n.isConditional = true ∧ k = 1 ∧ ∃ p, n.children[0]? = some p ∧ p.Infers x

/-- The nodes on the way from a node to one inside it, with the numbers of the parts that it takes. -/
abbrev Node.Way := List (Node × Nat)

/-- The way leads from the first node to the second, which is inside it. -/
inductive Node.Leads : Node → Node.Way → Node → Prop
  | here (n : Node) : Leads n [] n
  | part {n m n' : Node} {k : Nat} {way : Node.Way} (hm : n.children[k]? = some m)
    (h : Leads m way n') : Leads n ((n, k) :: way) n'

variable {x : Ident} {k : Nat} {m : Node} {way : Node.Way} {s : Signature} {t : Ty}

theorem Node.Leads.concat {n m' : Node} (h : n.Leads way m) (hm' : m.children[k]? = some m') :
    n.Leads (way ++ [(m, k)]) m' := by
  induction h with
  | here n => exact .part hm' (.here m')
  | part hm _ ih => exact .part hm (ih hm')

/-- The name is bound on the way. -/
def Node.Way.Bound (way : Node.Way) (x : Ident) : Prop := ∃ e ∈ way, e.1.Binds e.2 x

/-- The name is that of a type parameter on the way. -/
def Node.Way.HasParam (way : Node.Way) (x : Ident) : Prop := ∃ e ∈ way, x ∈ e.1.tparams.map (·.name)

theorem Node.Way.bound_cons (e : Node × Nat) (way : Node.Way) (x : Ident) :
    Node.Way.Bound (e :: way) x ↔ e.1.Binds e.2 x ∨ way.Bound x :=
  List.exists_mem_cons_iff ..

theorem Node.Way.hasParam_cons (e : Node × Nat) (way : Node.Way) (x : Ident) :
    Node.Way.HasParam (e :: way) x ↔ x ∈ e.1.tparams.map (·.name) ∨ way.HasParam x :=
  List.exists_mem_cons_iff ..

theorem Node.Way.HasParam.bound (h : way.HasParam x) : way.Bound x := by
  obtain ⟨e, he, hx⟩ := h
  exact ⟨e, he, .inl hx⟩

theorem Node.Way.bound_nil : Node.Way.Bound [] = fun _ => False := by
  funext x
  refine propext ⟨?_, False.elim⟩
  rintro ⟨e, he, -⟩
  cases he

theorem Node.Way.bound_concat (way : Node.Way) (n : Node) (k : Nat) :
    Node.Way.Bound (way ++ [(n, k)]) = fun x => way.Bound x ∨ n.Binds k x := by
  funext x
  simp only [Bound, List.mem_append, List.mem_singleton, or_and_right, exists_or, exists_eq_left]

/-- The name is mentioned in the node, where it is not bound. -/
def Node.Free (n : Node) (x : Ident) : Prop :=
  ∃ way i ts, n.Leads way (.ty (.ref i [x] ts)) ∧ ¬ way.Bound x

theorem Node.Free.part {n : Node} (h : m.Free x) (hm : n.children[k]? = some m) (hk : ¬ n.Binds k x) :
    n.Free x := by
  obtain ⟨way, i, ts, hway, hx⟩ := h
  exact ⟨(n, k) :: way, i, ts, .part hm hway, fun hb => ((Way.bound_cons _ _ _).1 hb).elim hk hx⟩

theorem Node.free_of_isNamed (h : t.isNamed x = true) : (Node.ty t).Free x := by
  unfold Ty.isNamed at h
  split at h
  · rename_i i y
    obtain rfl : x = y := eq_of_beq h
    exact ⟨[], i, [], .here _, fun hb => by rwa [Way.bound_nil] at hb⟩
  · cases h

/-! ## Replacing free names -/

/-- Types in the place of names. -/
abbrev Assignment := Ident → Ty → Prop

/-- The second node is the first with types in the place of its free names. The names of `bound` are bound
around: they are not replaced, and are not free in what is put in. -/
inductive Node.Substituted (σ : Assignment) : (Ident → Prop) → Node → Node → Prop
  | replaced {bound : Ident → Prop} {i : NodeInfo} {x : Ident} {u : Ty} (hu : σ x u) (hx : ¬ bound x)
    (hfree : ∀ y, (Node.ty u).Free y → ¬ bound y) :
    Substituted σ bound (.ty (.ref i [x] [])) (.ty u)
  | kept {bound : Ident → Prop} {n n' : Node}
    (hname : ∀ i x ts u, n = .ty (.ref i [x] ts) → σ x u → bound x) (halike : n.Alike n')
    (hlength : n'.children.length = n.children.length)
    (hparts : ∀ k m m', n.children[k]? = some m → n'.children[k]? = some m' →
      Substituted σ (fun x => bound x ∨ n.Binds k x) m m') : Substituted σ bound n n'

theorem Node.Alike.beside {n n' n'' : Node} (h : n.Alike n') (h' : n.Alike n'') :
    n'' = n ∨ n'.Alike n'' := by
  cases h with
  | leaf hn => exact .inr h'
  | _ =>
    cases h' with
    | leaf hn => exact .inl rfl
    | _ => exact .inr (by constructor <;> simp_all)

theorem Node.Alike.unique {n n' n'' : Node} (h : n.Alike n') (h' : n.Alike n'')
    (hparts : n''.children = n'.children) : n'' = n' := by
  obtain rfl | hbes := h.beside h'
  · exact (h.eq hparts.symm).symm
  · exact hbes.eq hparts

theorem Node.Alike.eq_of_parts {n n' n'' : Node} (h : n.Alike n') (h' : n.Alike n'')
    (hlen : n'.children.length = n.children.length)
    (hlen' : n''.children.length = n.children.length)
    (hparts : ∀ (k : Nat) (m m' m'' : Node), n.children[k]? = some m → n'.children[k]? = some m' →
      n''.children[k]? = some m'' → m'' = m') : n'' = n' := by
  refine h.unique h' (List.ext_getElem (hlen'.trans hlen.symm) fun k hk hk' => ?_)
  exact hparts k _ _ _ (List.getElem?_eq_getElem (hlen' ▸ hk)) (List.getElem?_eq_getElem hk')
    (List.getElem?_eq_getElem hk)

theorem Node.Alike.typeKey?_eq {n n' : Node} (h : n.Alike n') : n'.typeKey? = n.typeKey? := by
  cases h <;> rfl

theorem Node.Alike.isConditional_eq {n n' : Node} (h : n.Alike n') :
    n'.isConditional = n.isConditional := by
  cases h <;> rfl

theorem Node.exists_part {n n' : Node} (hlen : n'.children.length = n.children.length)
    (hm : n.children[k]? = some m) : ∃ m', n'.children[k]? = some m' := by
  obtain ⟨hk, -⟩ := List.getElem?_eq_some_iff.1 hm
  exact ⟨_, List.getElem?_eq_getElem (hlen ▸ hk)⟩

namespace Node.Substituted

variable {σ : Assignment} {bound : Ident → Prop} {n n' n'' : Node}

/-- **Names are replaced in one way only.** -/
theorem unique (hσ : ∀ x u u', σ x u → σ x u' → u = u') (h : n.Substituted σ bound n')
    (h' : n.Substituted σ bound n'') : n'' = n' := by
  induction h generalizing n'' with
  | replaced hu hx =>
    cases h' with
    | replaced hu' => rw [hσ _ _ _ hu hu']
    | kept hname => exact absurd (hname _ _ _ _ rfl hu) hx
  | @kept bound n n' hname halike hlen _ ih =>
    cases h' with
    | replaced hu' hx' => exact absurd (hname _ _ _ _ rfl hu') hx'
    | kept _ halike' hlen' hparts' =>
      exact halike.eq_of_parts halike' hlen hlen' fun k m m' m'' hm hm' hm'' =>
        ih k m m' hm hm' (hparts' k m m'' hm hm'')

theorem tparamName?_eq (h : n.Substituted σ bound n') : n'.tparamName? = n.tparamName? := by
  cases h with
  | replaced => rfl
  | kept _ halike => cases halike <;> rfl

theorem sig_names {s' : Signature} (h : (Node.sig s).Substituted σ bound (.sig s')) :
    s'.tparams.map (·.name) = s.tparams.map (·.name) := by
  cases h with
  | kept _ _ hlen hparts =>
    rw [← ownNames_sig, ← ownNames_sig]
    exact ownNames_eq_of_parts hlen fun k m m' hm hm' => (hparts k m m' hm hm').tparamName?_eq

theorem infers (h : n.Substituted σ bound n') (hx : n.Infers x) : n'.Infers x := by
  induction h with
  | replaced =>
    cases hx with
    | part hm => cases hm
  | kept _ halike hlen hparts ih =>
    cases hx with
    | @infer p hp =>
      cases halike with
      | leaf hn => cases hn
      | infer _ p' =>
        have hname := (hparts 0 (.tparam p) (.tparam p') rfl rfl).tparamName?_eq
        exact .infer ((Option.some.inj hname).trans hp)
    | part hm hk hx =>
      obtain ⟨m', hm'⟩ := exists_part hlen hm
      exact .part hm' (fun hcond => hk (halike.isConditional_eq.symm.trans hcond)) (ih _ _ _ hm hm' hx)

theorem binds (halike : n.Alike n') (hlen : n'.children.length = n.children.length)
    {around : Nat → Ident → Prop} (hparts : ∀ (k : Nat) (m m' : Node), n.children[k]? = some m →
      n'.children[k]? = some m' → m.Substituted σ (around k) m') (h : n.Binds k x) : n'.Binds k x := by
  have hnames : n'.tparams.map (·.name) = n.tparams.map (·.name) := by
    refine halike.names_tparams
      (ownNames_eq_of_parts hlen fun k m m' hm hm' => (hparts k m m' hm hm').tparamName?_eq) ?_
    intro s s' hs hs'
    exact (hparts 0 (.sig s) (.sig s') (by rw [hs]; rfl) (by rw [hs']; rfl)).sig_names
  rcases h with h | h | ⟨hcond, rfl, p, hp, hx⟩
  · exact .inl (hnames ▸ h)
  · exact .inr (.inl (halike.typeKey?_eq.trans h))
  · obtain ⟨p', hp'⟩ := exists_part hlen hp
    exact .inr (.inr ⟨halike.isConditional_eq.trans hcond, rfl, p', hp', (hparts 0 p p' hp hp').infers hx⟩)

/-- **What is free afterwards** was free and is not replaced, or is free in what replaces a free name. -/
theorem free (h : n.Substituted σ bound n') (hfree : n'.Free x) (hbound : ¬ bound x) :
    n.Free x ∧ (∀ u, ¬ σ x u) ∨
      ∃ y u, n.Free y ∧ ¬ bound y ∧ σ y u ∧ (Node.ty u).Free x := by
  induction h with
  | @replaced bound i y u hu hy _ =>
    exact .inr ⟨y, u, free_of_isNamed (beq_self_eq_true y), hy, hu, hfree⟩
  | @kept bound n n' hname halike hlen hparts ih =>
    obtain ⟨way, i, ts, hway, hx⟩ := hfree
    cases hway with
    | here =>
      obtain ⟨ts, rfl⟩ : ∃ ts, n = .ty (.ref i [x] ts) := by
        cases halike with
        | leaf hn => exact ⟨_, rfl⟩
        | ref _ _ ts => exact ⟨ts, rfl⟩
      exact .inl ⟨⟨[], i, ts, .here _, hx⟩, fun u hu => hbound (hname i x ts u rfl hu)⟩
    | @part _ m' _ k way hm' hway =>
      rw [Way.bound_cons, not_or] at hx
      obtain ⟨m, hm⟩ := exists_part hlen.symm hm'
      have hk : ¬ n.Binds k x := fun hk => hx.1 (binds halike hlen hparts hk)
      obtain ⟨hm₁, hσ⟩ | ⟨y, u, hy, hnot, hu, hxu⟩ :=
        ih k m m' hm hm' ⟨way, i, ts, hway, hx.2⟩ (not_or.2 ⟨hbound, hk⟩)
      · exact .inl ⟨hm₁.part hm hk, hσ⟩
      · rw [not_or] at hnot
        exact .inr ⟨y, u, hy.part hm hnot.2, hnot.1, hu, hxu⟩

end Node.Substituted

/-! ## Walks that replace types -/

theorem Ty.named_beq (x : Ident) (t : Ty) : (Ty.ref {} [x] [] == t) = t.isNamed x := by
  change Ty.same _ t = _
  cases t with
  | ref i q ts =>
    rw [Ty.same]
    rcases q with _ | ⟨y, _ | ⟨z, q⟩⟩
    · rfl
    · cases ts <;> simp [Ty.sameList, Ty.isNamed]
    · simp [Ty.isNamed]
  | _ => simp [Ty.same, Ty.isNamed]

theorem bindsReference_nil (t : Ty) : bindsReference [] t = false := by
  unfold bindsReference
  split <;> rfl

namespace Substitution

/-- The part of the substitution that is in force at the end of the way. -/
def along (sub : Substitution) (way : Node.Way) : Substitution :=
  way.foldl (fun sub e => sub.under e.1) sub

/-- What is put in the place of a reference to the name. -/
def standIn? (sub : Substitution) (x : Ident) : Option Ty :=
  (sub.find? fun e => e.1 == .ref {} [x] []).map (·.2)

/-- The substitution replaces the free names of the node as `σ` says, wherever they are mentioned. -/
structure Realises (sub : Substitution) (σ : Assignment) (n : Node) : Prop where
  keys : ∀ e ∈ sub, ∃ x, e.1 = .ref {} [x] []
  replaced : ∀ {way i x u}, n.Leads way (.ty (.ref i [x] [])) → (sub.along way).standIn? x = some u →
    σ x u ∧ ¬ way.Bound x ∧ ∀ y, (Node.ty u).Free y → ¬ way.Bound y
  kept : ∀ {way i x ts u}, n.Leads way (.ty (.ref i [x] ts)) →
    (ts = [] → (sub.along way).standIn? x = none) → σ x u → way.Bound x

theorem along_concat (sub : Substitution) (way : Node.Way) (n : Node) (k : Nat) :
    sub.along (way ++ [(n, k)]) = (sub.along way).under n := by
  rw [along, List.foldl_append]
  rfl

theorem along_subset (sub : Substitution) (way : Node.Way) : sub.along way ⊆ sub := by
  induction way generalizing sub with
  | nil => exact fun _ h => h
  | cons e way ih => exact fun _ h => (List.mem_filter.1 (ih (sub.under e.1) h)).1

theorem replacement?_ref (sub : Substitution) (i : NodeInfo) (x : Ident) :
    sub.replacement? (.ref i [x] []) = sub.standIn? x := by
  have hkey : ∀ e : Ty × Ty, (e.1 == Ty.ref i [x] []) = (e.1 == Ty.ref {} [x] []) := by
    rintro ⟨k, u⟩
    change Ty.same k _ = Ty.same k _
    cases k <;> simp only [Ty.same]
  simp only [replacement?, standIn?, hkey]
  cases sub.find? fun e => e.1 == Ty.ref {} [x] [] with
  | none => rfl
  | some e =>
    obtain ⟨k, u⟩ := e
    cases u <;> rfl

theorem replacement?_other {sub : Substitution} (hkeys : ∀ e ∈ sub, ∃ x, e.1 = .ref {} [x] [])
    (ht : ∀ i x, t ≠ .ref i [x] []) : sub.replacement? t = none := by
  have hnone : (sub.find? fun e => e.1 == t) = none := by
    refine List.find?_eq_none.2 fun e he => ?_
    obtain ⟨x, hx⟩ := hkeys e he
    rw [hx, Ty.named_beq]
    unfold Ty.isNamed
    split
    · exact absurd rfl (ht _ _)
    · exact Bool.false_ne_true
  simp only [replacement?, hnone]

/-- What is known of a node at the end of the way when its parts are done. -/
structure Rebuilds (σ : Assignment) (way : Node.Way) (n n' : Node) : Prop where
  alike : n.Alike n'
  length : n'.children.length = n.children.length
  parts : ∀ (k : Nat) (m m' : Node), n.children[k]? = some m → n'.children[k]? = some m' →
    m.Substituted σ (fun x => way.Bound x ∨ n.Binds k x) m'

theorem Rebuilds.kept {σ : Assignment} {n n' : Node} (h : Rebuilds σ way n n')
    (hname : ∀ i x ts u, n = .ty (.ref i [x] ts) → σ x u → way.Bound x) :
    n.Substituted σ way.Bound n' :=
  .kept hname h.alike h.length h.parts

section
variable {sub : Substitution} {σ : Assignment} {root : Node}

theorem Rebuilds.of_rebuilt {n n' : Node} {sub' : Substitution} {b : Bool}
    (h : Rebuilt (fun m m' _ => ∀ way, root.Leads way m → sub'.under n = sub.along way →
      m.Substituted σ way.Bound m') n n' b) (hway : root.Leads way n) (hsub : sub' = sub.along way) :
    Rebuilds σ way n n' where
  alike := h.alike
  length := h.parts.length_eq
  parts k m m' hm hm' := by
    obtain ⟨-, hpart⟩ := h.parts.getElem? hm hm'
    rw [← Node.Way.bound_concat]
    exact hpart _ (hway.concat hm) (by rw [hsub, along_concat])

theorem Realises.leaveTy (h : sub.Realises σ root) {t' : Ty} (hway : root.Leads way (.ty t))
    (hbuilt : Rebuilds σ way (.ty t) (.ty t')) :
    (Node.ty t).Substituted σ way.Bound
      (.ty ((((sub.along way).under (.ty t)).replacement? t').getD t')) := by
  have hkeys : ∀ e ∈ (sub.along way).under (.ty t), ∃ x, e.1 = .ref {} [x] [] := fun e he =>
    h.keys e (along_subset sub way (List.mem_filter.1 he).1)
  by_cases hsimp : ∃ i x, t = .ref i [x] []
  · obtain ⟨i, x, rfl⟩ := hsimp
    obtain rfl : t' = .ref i [x] [] := by
      obtain ⟨halike, hlen, -⟩ := hbuilt
      cases halike with
      | leaf => rfl
      | ref _ _ _ ts' =>
        obtain rfl : ts' = [] := by simpa [Node.children, Node.childrenOfTy] using hlen
        rfl
    have hunder : (sub.along way).under (.ty (.ref i [x] [])) = sub.along way :=
      List.filter_eq_self.2 fun e _ => congrArg (!·) (bindsReference_nil e.1)
    rw [hunder, replacement?_ref]
    cases hfound : (sub.along way).standIn? x with
    | some u =>
      obtain ⟨hu, hx, hfree⟩ := h.replaced hway hfound
      exact .replaced hu hx hfree
    | none =>
      refine hbuilt.kept fun j y ts u heq hu => ?_
      cases heq
      exact h.kept hway (fun _ => hfound) hu
  · have ht' : ∀ i x, t' ≠ .ref i [x] [] := by
      rintro i x rfl
      obtain ⟨halike, hlen, -⟩ := hbuilt
      cases halike with
      | leaf => exact hsimp ⟨i, x, rfl⟩
      | ref _ _ ts =>
        obtain rfl : ts = [] := by simpa [Node.children, Node.childrenOfTy] using hlen.symm
        exact hsimp ⟨i, x, rfl⟩
    rw [replacement?_other hkeys ht']
    refine hbuilt.kept fun i x ts u heq hu => ?_
    cases heq
    exact h.kept hway (fun hts => absurd ⟨i, x, by rw [hts]⟩ hsimp) hu

theorem Realises.builds (h : sub.Realises σ root) :
    substituteHooks.Builds computing
      (fun sub' n => n.isPart = true ∧ ∃ way, root.Leads way n ∧ sub' = sub.along way)
      (fun _ _ p => p = none)
      (fun _ _ sub' n n' _ => ∀ way, root.Leads way n → sub' = sub.along way → Rebuilds σ way n n')
      (fun _ _ sub' n n' _ => ∀ way, root.Leads way n → sub' = sub.along way →
        n.Substituted σ way.Bound n') where
  idle := {}
  child {sub' n m} := by
    rintro ⟨hn, way, hway, rfl⟩ hm
    obtain ⟨k, hk⟩ := List.mem_iff_getElem?.1 hm
    exact ⟨Node.isPart_children (Node.isQuiet_of_isPart hn) hm, way ++ [(n, k)], hway.concat hk,
      (along_concat sub way n k).symm⟩
  mono _ _ hR := hR
  plain _ _ _ hbuilt way hway hsub := .of_rebuilt hbuilt hway hsub
  enterFile hv := rfl
  enterDecl hv := rfl
  newMembers {w w' sub' n ds ds' b} owner hv hds _ := by
    cases n with
    | file f | decl d => cases hv.1
    | _ => cases hds
  newClassMembers owner hv hbuilt hms := by
    intro n'' hn'' way hway hsub
    obtain rfl := Node.withClassMembers?_eq hms hn''
    exact .of_rebuilt hbuilt hway hsub
  leaveFile hv _ _ := by cases hv.1
  leaveDecl hv _ _ := by cases hv.1
  leaveTy _ hS way hway hsub := by
    subst hsub
    exact h.leaveTy hway (hS way hway rfl)
  keep {w w' sub' n n' b} hv hn hS way hway hsub := by
    refine (hS way hway hsub).kept fun i x ts u heq _ => ?_
    subst heq
    cases hn

/-- **A walk that replaces types in a signature** replaces its free names, if the substitution does so
wherever they are mentioned. -/
theorem inSignature_substituted (h : sub.Realises σ (.sig s)) :
    (Node.sig s).Substituted σ (fun _ => False) (.sig (sub.inSignature s).value) := by
  have hwalk := walkSig_builds h.builds s ⟨rfl, [], .here _, rfl⟩ () [] (.here _) rfl
  rwa [Node.Way.bound_nil] at hwalk

theorem inTy_substituted (h : sub.Realises σ (.ty t)) :
    (Node.ty t).Substituted σ (fun _ => False) (.ty (sub.inTy t).value) := by
  have hwalk := walkTy_builds h.builds t ⟨rfl, [], .here _, rfl⟩ () [] (.here _) rfl
  rwa [Node.Way.bound_nil] at hwalk

end

end Substitution

theorem Substitution.Realises.nil {σ : Assignment} {n : Node} (h : ∀ x u, n.Free x → ¬ σ x u) :
    Substitution.Realises [] σ n where
  keys _ he := by cases he
  replaced {way i x u} _ hu := by
    rw [List.eq_nil_of_subset_nil (along_subset [] way)] at hu
    cases hu
  kept {way i x ts u} hway _ hu := by
    by_contra hx
    exact h x u ⟨way, i, ts, hway, hx⟩ hu

namespace Node.Substituted

variable {σ : Assignment}

theorem sig_self (h : ∀ x u, (Node.sig s).Free x → ¬ σ x u) :
    (Node.sig s).Substituted σ (fun _ => False) (.sig s) := by
  have hrest := walkSig_builds Substitution.rests_nil.builds s rfl ()
  have hwalk := Substitution.inSignature_substituted (.nil h)
  rw [Substitution.inSignature, Node.sig.inj hrest.1] at hwalk
  exact hwalk

theorem ty_self (h : ∀ x u, (Node.ty t).Free x → ¬ σ x u) :
    (Node.ty t).Substituted σ (fun _ => False) (.ty t) := by
  have hrest := walkTy_builds Substitution.rests_nil.builds t rfl ()
  have hwalk := Substitution.inTy_substituted (.nil h)
  rw [Substitution.inTy, Node.ty.inj hrest.1] at hwalk
  exact hwalk

end Node.Substituted

end Ambient
