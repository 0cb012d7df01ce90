import Ambient.Proofs.Inheritance
import Ambient.Proofs.Simplest
import Ambient.Proofs.Twin.Equal

/-!
# Replacing types where names are bound

A type is replaced if, when the types in it have been replaced, it equals a key of the substitution, and it
is not guarded: a reference to a name that is bound where it stands means something else
(`Node.Replaced`). What a node becomes is determined by that (`Node.Replaced.unique`).

By the rules of the language a name is bound by a type parameter of a node around, or as the key of a
mapped type around (`Binder.lexical`). The walk that replaces types guards less: it does not look at keys of
mapped types, and a reference that is written with type arguments it does not guard at all
(`Binder.byParams`).

* `Substitution.inNode?_replaced`: what the walk makes of a tree.
* `Node.Replaced.lexical`: that is what the language asks for where the two do not differ.
* `substitution_respects_binders`: the two together.
-/

namespace Ambient

/-! ## Binders -/

/-- What binds names, and which types are guarded by names that are bound. -/
structure Binder where
  /-- The names that a node binds inside of it. -/
  names : Node → List Ident
  guards : List Ident → Ty → Bool

variable {n n' : Node} {t : Ty}

namespace Binder

/-- Type parameters bind names, and a reference without type arguments is guarded by its name. -/
def byParams : Binder where
  names n := n.tparams.map (·.name)
  guards bound
    | .ref _ [x] [] => bound.contains x
    | _ => false

/-- Type parameters and keys of mapped types bind names, and a reference is guarded by its name. -/
def lexical : Binder where
  names n := n.tparams.map (·.name) ++ n.typeKey?.toList
  guards bound
    | .ref _ [x] _ => bound.contains x
    | _ => false

theorem byParams_guards {bound : List Ident} :
    byParams.guards bound t = true ↔ ∃ i x, t = .ref i [x] [] ∧ x ∈ bound := by
  simp only [byParams]
  split
  · simp
  · rename_i hnot
    constructor
    · intro h
      cases h
    · rintro ⟨i, x, rfl, -⟩
      exact absurd rfl (hnot i x)

theorem lexical_guards {bound : List Ident} :
    lexical.guards bound t = true ↔ ∃ i x ts, t = .ref i [x] ts ∧ x ∈ bound := by
  simp only [lexical]
  split
  · simp
  · rename_i hnot
    constructor
    · intro h
      cases h
    · rintro ⟨i, x, ts, rfl, -⟩
      exact absurd rfl (hnot i x ts)

end Binder

/-! ## What becomes of a node -/

/-- What the substitution puts in the place of a type. -/
def Substitution.value? (sub : Substitution) (t : Ty) : Option Ty :=
  (sub.find? fun e => e.1 == t).map (·.2)

/-- What becomes of a node, where the names of `bound` are bound around it. The nodes directly inside it are
done first. Then a type that is not guarded and equals a key becomes the value of the key, as it is, and
everything else stays. -/
inductive Node.Replaced (sub : Substitution) (b : Binder) : List Ident → Node → Node → Prop
  | container {bound : List Ident} {n n' : Node} {ds ds' : List Decl} (hds : n.members? = some ds)
    (hn' : n.withMembers? ds' = some n') (hlength : ds'.length = ds.length)
    (hparts : ∀ (k : Nat) (d d' : Decl), ds[k]? = some d → ds'[k]? = some d' →
      Replaced sub b (bound ++ b.names n) (.decl d) (.decl d')) : Replaced sub b bound n n'
  | kept {bound : List Ident} {n n' : Node} (hds : n.members? = none) (halike : n.Alike n')
    (hlength : n'.children.length = n.children.length)
    (hparts : ∀ (k : Nat) (m m' : Node), n.children[k]? = some m → n'.children[k]? = some m' →
      Replaced sub b (bound ++ b.names n) m m')
    (hkept : ∀ t t', n = .ty t → n' = .ty t' → b.guards bound t = false → sub.value? t' = none) :
    Replaced sub b bound n n'
  | replaced {bound : List Ident} {t t' u : Ty} (halike : (Node.ty t).Alike (.ty t'))
    (hlength : (Node.ty t').children.length = (Node.ty t).children.length)
    (hparts : ∀ (k : Nat) (m m' : Node), (Node.ty t).children[k]? = some m →
      (Node.ty t').children[k]? = some m' → Replaced sub b (bound ++ b.names (.ty t)) m m')
    (hfree : b.guards bound t = false) (hu : sub.value? t' = some u) :
    Replaced sub b bound (.ty t) (.ty u)

section
variable {sub : Substitution} {b : Binder}

/-- **What becomes of a node is determined.** -/
theorem Node.Replaced.unique {bound : List Ident} {n'' : Node} (h : n.Replaced sub b bound n')
    (h' : n.Replaced sub b bound n'') : n'' = n' := by
  induction h generalizing n'' with
  | @container bound n n' ds ds' hds hn' hlen _ ih =>
    cases h' with
    | @container _ _ _ es es' hes hn'' hlen' hparts' =>
      obtain rfl : ds = es := Option.some.inj (hds.symm.trans hes)
      obtain rfl : es' = ds' := by
        refine List.ext_getElem (hlen'.trans hlen.symm) fun k hk hk' => ?_
        have hd : ds[k]? = some ds[k] := List.getElem?_eq_getElem (hlen' ▸ hk)
        exact Node.decl.inj (ih k _ _ hd (List.getElem?_eq_getElem hk')
          (hparts' k _ _ hd (List.getElem?_eq_getElem hk)))
      exact Option.some.inj (hn''.symm.trans hn')
    | kept hnone => cases hds.symm.trans hnone
    | replaced => cases hds
  | @kept bound n n' hnone halike hlen _ hkept ih =>
    cases h' with
    | container hds => cases hds.symm.trans hnone
    | kept _ halike' hlen' hparts' _ =>
      exact halike.eq_of_parts halike' hlen hlen' fun k m m' m'' hm hm' hm'' =>
        ih k m m' hm hm' (hparts' k m m'' hm hm'')
    | @replaced _ t t' u halike' hlen' hparts' hfree hu =>
      obtain rfl := halike.eq_of_parts halike' hlen hlen' fun k m m' m'' hm hm' hm'' =>
        ih k m m' hm hm' (hparts' k m m'' hm hm'')
      cases hu.symm.trans (hkept t t' rfl rfl hfree)
  | @replaced bound t t' u halike hlen _ hfree hu ih =>
    cases h' with
    | container hds => cases hds
    | kept _ halike' hlen' hparts' hkept =>
      obtain rfl := halike.eq_of_parts halike' hlen hlen' fun k m m' m'' hm hm' hm'' =>
        ih k m m' hm hm' (hparts' k m m'' hm hm'')
      cases hu.symm.trans (hkept t t' rfl rfl hfree)
    | replaced halike' hlen' hparts' _ hu' =>
      cases halike.eq_of_parts halike' hlen hlen' fun k m m' m'' hm hm' hm'' =>
        ih k m m' hm hm' (hparts' k m m'' hm hm'')
      rw [Option.some.inj (hu.symm.trans hu')]

end

/-! ## The part of a substitution that is in force -/

theorem Ty.ref_of_beq {i : NodeInfo} {q : QIdent} {ts : List Ty} (h : (t == .ref i q ts) = true) :
    ∃ j us, t = .ref j q us ∧ us.length = ts.length := by
  replace h : t.same (.ref i q ts) = true := h
  cases t with
  | ref j r us =>
    rw [Ty.same, Bool.and_eq_true, beq_iff_eq] at h
    obtain ⟨rfl, hts⟩ := h
    exact ⟨j, us, rfl, (Ty.forall₂_of_sameList hts).length_eq⟩
  | _ => simp [Ty.same] at h

namespace Binder

theorem byParams_guards_append (bound bound' : List Ident) (t : Ty) :
    byParams.guards (bound ++ bound') t = (byParams.guards bound t || byParams.guards bound' t) := by
  simp only [byParams]
  split
  · exact List.contains_append
  · rfl

theorem bindsReference_eq (ps : List TypeParam) (t : Ty) :
    bindsReference ps t = byParams.guards (ps.map (·.name)) t := by
  rw [Bool.eq_iff_iff, byParams_guards]
  unfold bindsReference
  split
  · simp
  · rename_i hnot
    constructor
    · intro h
      cases h
    · rintro ⟨i, x, rfl, -⟩
      exact absurd rfl (hnot i x)

theorem byParams_guards_of_beq {u : Ty} (h : (t == u) = true) (bound : List Ident) :
    byParams.guards bound t = byParams.guards bound u := by
  have hgd : ∀ {t u : Ty}, (t == u) = true → byParams.guards bound u = true →
      byParams.guards bound t = true := by
    intro t u h hu
    obtain ⟨i, x, rfl, hx⟩ := byParams_guards.1 hu
    obtain ⟨j, us, rfl, hlen⟩ := Ty.ref_of_beq h
    obtain rfl := List.length_eq_zero_iff.1 hlen
    exact byParams_guards.2 ⟨j, x, rfl, hx⟩
  exact Bool.eq_iff_iff.2 ⟨hgd (BEq.symm h), hgd h⟩

theorem byParams_guards_of_alike {t' : Ty} (h : (Node.ty t).Alike (.ty t'))
    (hlen : (Node.ty t').children.length = (Node.ty t).children.length) (bound : List Ident) :
    byParams.guards (bound ++ byParams.names (.ty t)) t' = byParams.guards bound t := by
  cases h with
  | leaf hnone =>
    cases t with
    | ref i q ts => exact congrArg (byParams.guards · _) (List.append_nil bound)
    | _ => rfl
  | ref i q ts ts' =>
    have hbound : bound ++ byParams.names (.ty (.ref i q ts)) = bound := List.append_nil bound
    rw [hbound]
    cases ts with
    | nil =>
      obtain rfl : ts' = [] := by simpa [Node.children, Node.childrenOfTy] using hlen
      rfl
    | cons t ts =>
      cases ts' with
      | nil => cases hlen
      | cons t' ts' => rcases q with _ | ⟨x, _ | ⟨y, q⟩⟩ <;> rfl
  | _ => rfl

end Binder

namespace Substitution

/-- The part of the substitution that is in force where the names are bound. -/
def without (sub : Substitution) (bound : List Ident) : Substitution :=
  sub.filter fun e => !Binder.byParams.guards bound e.1

theorem without_nil (sub : Substitution) : sub.without [] = sub := by
  refine List.filter_eq_self.2 fun e _ => ?_
  rw [Bool.not_eq_true', ← Bool.not_eq_true, Binder.byParams_guards]
  rintro ⟨i, x, -, hx⟩
  cases hx

theorem under_without (sub : Substitution) (bound : List Ident) (n : Node) :
    (sub.without bound).under n = sub.without (bound ++ Binder.byParams.names n) := by
  simp only [under, without, List.filter_filter, Binder.bindsReference_eq,
    Binder.byParams_guards_append, Bool.not_or]
  exact List.filter_congr fun e _ => Bool.and_comm _ _

theorem value?_without (sub : Substitution) (bound : List Ident) (t : Ty) :
    (sub.without bound).value? t =
      if Binder.byParams.guards bound t = true then none else sub.value? t := by
  have hkey : ∀ e : Ty × Ty, (!Binder.byParams.guards bound e.1 && e.1 == t) =
      (!Binder.byParams.guards bound t && e.1 == t) := by
    intro e
    cases he : e.1 == t with
    | false => rw [Bool.and_false, Bool.and_false]
    | true => rw [Binder.byParams_guards_of_beq he]
  have hfind : (sub.without bound).find? (fun e => e.1 == t) =
      sub.find? fun e => !Binder.byParams.guards bound t && e.1 == t := by
    rw [without, List.find?_filter]
    exact congrArg (sub.find? ·) (funext fun e => by simpa using hkey e)
  rw [value?, hfind]
  cases Binder.byParams.guards bound t <;> simp [value?]

theorem getD_replacement? (sub : Substitution) (t : Ty) :
    (sub.replacement? t).getD t = (sub.value? t).getD t := by
  unfold replacement? value?
  split
  · rename_i hfind
    rw [hfind]
    rfl
  · rename_i hfind
    rw [hfind]
    rfl
  · rename_i hfind
    rw [hfind]
    rfl

end Substitution

/-! ## The walk -/

/-- What is known of a node when its parts are done. -/
inductive Node.PartsReplaced (sub : Substitution) (b : Binder) (bound : List Ident) : Node → Node → Prop
  | container {n n' : Node} {ds ds' : List Decl} (hds : n.members? = some ds)
    (hn' : n.withMembers? ds' = some n') (hlength : ds'.length = ds.length)
    (hparts : ∀ (k : Nat) (d d' : Decl), ds[k]? = some d → ds'[k]? = some d' →
      (Node.decl d).Replaced sub b (bound ++ b.names n) (.decl d')) : PartsReplaced sub b bound n n'
  | other {n n' : Node} (hds : n.members? = none) (halike : n.Alike n')
    (hlength : n'.children.length = n.children.length)
    (hparts : ∀ (k : Nat) (m m' : Node), n.children[k]? = some m → n'.children[k]? = some m' →
      m.Replaced sub b (bound ++ b.names n) m') : PartsReplaced sub b bound n n'

section
variable {sub : Substitution} {b : Binder} {bound : List Ident}

theorem Node.PartsReplaced.kept (h : n.PartsReplaced sub b bound n') (hn : ∀ t, n ≠ .ty t) :
    n.Replaced sub b bound n' := by
  cases h with
  | container hds hn' hlen hparts => exact .container hds hn' hlen hparts
  | other hds halike hlen hparts =>
    exact .kept hds halike hlen hparts fun t _ ht => absurd ht (hn t)

theorem Node.PartsReplaced.leaveTy {t' : Ty}
    (h : (Node.ty t).PartsReplaced sub .byParams bound (.ty t')) :
    (Node.ty t).Replaced sub .byParams bound
      (.ty ((((sub.without bound).under (.ty t)).replacement? t').getD t')) := by
  cases h with
  | container hds => cases hds
  | other hds halike hlen hparts =>
    rw [Substitution.getD_replacement?, Substitution.under_without, Substitution.value?_without,
      Binder.byParams_guards_of_alike halike hlen]
    split
    · rename_i hgd
      refine .kept hds halike hlen hparts fun u u' hu _ hfree => ?_
      cases hu
      cases hgd.symm.trans hfree
    · rename_i hgd
      have hfree := Bool.eq_false_iff.2 hgd
      cases hu : sub.value? t' with
      | none =>
        refine .kept hds halike hlen hparts fun u u' _ hu' _ => ?_
        cases hu'
        exact hu
      | some u => exact .replaced halike hlen hparts hfree hu

theorem Rebuilt.partsReplaced {changed : Bool} {sub' : Substitution}
    (h : Rebuilt (fun m m' _ => ∀ bound, sub'.under n = sub.without bound →
      m.Replaced sub .byParams bound m') n n' changed) (hds : n.members? = none)
    (hsub : sub' = sub.without bound) : n.PartsReplaced sub .byParams bound n' := by
  refine .other hds h.alike h.parts.length_eq fun k m m' hm hm' => ?_
  obtain ⟨-, hpart⟩ := h.parts.getElem? hm hm'
  exact hpart _ (by rw [hsub, Substitution.under_without])

/-- **The walk replaces types** that are not guarded by a type parameter. -/
theorem Substitution.builds (sub : Substitution) :
    substituteHooks.Builds computing (fun _ _ => True) (fun _ _ p => p = none)
      (fun _ _ sub' n n' _ => ∀ bound, sub' = sub.without bound → n.PartsReplaced sub .byParams bound n')
      (fun _ _ sub' n n' _ => ∀ bound, sub' = sub.without bound → n.Replaced sub .byParams bound n') where
  idle := {}
  child _ _ := trivial
  mono _ _ hR := hR
  plain _ hds _ hbuilt _ hsub := hbuilt.partsReplaced hds hsub
  enterFile _ := rfl
  enterDecl _ := rfl
  newMembers {w w' sub' n ds ds' changed} owner _ hds hw := by
    intro n' hn' bound hsub
    replace hn' : n.withMembers? ds' = some n' := hn'
    refine .container hds hn' (by simpa using hw.length_eq) fun k d d' hd hd' => ?_
    obtain ⟨-, hpart⟩ := hw.getElem? (i := k) (by rw [List.getElem?_map, hd]; rfl)
      (by rw [List.getElem?_map, hd']; rfl)
    exact hpart _ (by rw [hsub]; exact sub.under_without bound n)
  newClassMembers {w w' sub' n n' ms changed} owner _ hbuilt hms := by
    intro n'' hn'' bound hsub
    obtain rfl := Node.withClassMembers?_eq hms hn''
    refine hbuilt.partsReplaced ?_ hsub
    exact hbuilt.alike.members?_eq.symm.trans (Node.members?_of_classMembers? hms)
  leaveFile _ hp hS := by
    subst hp
    exact fun bound hsub => (hS bound hsub).kept fun _ ht => nomatch ht
  leaveDecl _ hp hS := by
    subst hp
    exact fun bound hsub => (hS bound hsub).kept fun _ ht => nomatch ht
  leaveTy _ hS bound hsub := by
    subst hsub
    exact (hS bound rfl).leaveTy
  keep {w w' sub' n n' changed} _ hn hS bound hsub := by
    refine (hS bound hsub).kept fun t ht => ?_
    subst ht
    cases hn

end

/-- The tree with types replaced in it; only types, signatures and files are taken as a whole. -/
def Substitution.inNode? (sub : Substitution) : Node → Option Node
  | .ty t => some (.ty (sub.inTy t).value)
  | .sig s => some (.sig (sub.inSignature s).value)
  | .file f => some (.file (sub.inFile f).value)
  | _ => none

theorem Substitution.inNode?_replaced {sub : Substitution} (h : sub.inNode? n = some n') :
    n.Replaced sub .byParams [] n' := by
  have hsub := sub.without_nil.symm
  cases n with
  | ty t =>
    cases h
    exact walkTy_builds sub.builds t trivial () [] hsub
  | sig s =>
    cases h
    exact walkSig_builds sub.builds s trivial () [] hsub
  | file f =>
    cases h
    rw [inFile_eq]
    exact walkFile_builds sub.builds f trivial () [] hsub
  | _ => cases h

/-! ## Names that are bound otherwise -/

/-- The names that are bound on the way. -/
def Binder.along (b : Binder) (way : Node.Way) : List Ident := way.flatMap fun e => b.names e.1

/-- No key of the substitution is a reference to the name. -/
def Substitution.Spares (sub : Substitution) (x : Ident) : Prop :=
  ∀ e ∈ sub, ∀ i ts, e.1 ≠ .ref i [x] ts

/-- Where the names of `bound` are bound by type parameters and those of `bound'` are bound at all: every
reference in the node to a bound name is guarded by a type parameter, or its name is spared. -/
def Substitution.SparesBound (sub : Substitution) (bound bound' : List Ident) (n : Node) : Prop :=
  ∀ {way i x ts}, n.Leads way (.ty (.ref i [x] ts)) → x ∈ bound' ++ Binder.lexical.along way →
    ts = [] ∧ x ∈ bound ++ Binder.byParams.along way ∨ sub.Spares x

theorem Substitution.SparesBound.part {sub : Substitution} {bound bound' : List Ident} {m : Node}
    (h : sub.SparesBound bound bound' n) {k : Nat} (hm : n.children[k]? = some m) :
    sub.SparesBound (bound ++ Binder.byParams.names n) (bound' ++ Binder.lexical.names n) m := by
  intro way i x ts hway hx
  have hspar := h (.part hm hway)
  simp only [Binder.along, List.flatMap_cons, ← List.append_assoc] at hspar
  exact hspar hx

theorem Substitution.Spares.value? {sub : Substitution} {x : Ident} (h : sub.Spares x) (i : NodeInfo)
    (ts : List Ty) : sub.value? (.ref i [x] ts) = none := by
  rw [Substitution.value?, Option.map_eq_none_iff, List.find?_eq_none]
  intro e he hkey
  obtain ⟨j, us, heq, -⟩ := Ty.ref_of_beq hkey
  exact h e he j us heq

/-- **The walk does as the language asks** where every reference to a bound name is guarded by a type
parameter, or its name is spared. -/
theorem Node.Replaced.lexical {sub : Substitution} {bound bound' : List Ident}
    (h : n.Replaced sub .byParams bound n') (hbound : bound ⊆ bound')
    (hspar : sub.SparesBound bound bound' n) : n.Replaced sub .lexical bound' n' := by
  have hnames : ∀ {bound bound' : List Ident}, bound ⊆ bound' → ∀ n : Node,
      bound ++ Binder.byParams.names n ⊆ bound' ++ Binder.lexical.names n := by
    intro bound bound' h n x hx
    rcases List.mem_append.1 hx with hx | hx
    · exact List.mem_append_left _ (h hx)
    · exact List.mem_append_right _ (List.mem_append_left _ hx)
  induction h generalizing bound' with
  | @container bound n n' ds ds' hds hn' hlen _ ih =>
    refine .container hds hn' hlen fun k d d' hd hd' => ?_
    refine ih k d d' hd hd' (hnames hbound n) (hspar.part (k := k) ?_)
    rw [Node.children_of_members? hds, List.getElem?_map, hd]
    rfl
  | @kept bound n n' hds halike hlen _ hkept ih =>
    refine .kept hds halike hlen (fun k m m' hm hm' => ?_) fun t t' ht ht' hfree => ?_
    · exact ih k m m' hm hm' (hnames hbound n) (hspar.part hm)
    · refine hkept t t' ht ht' ?_
      rw [← Bool.not_eq_true, Binder.lexical_guards] at hfree
      rw [← Bool.not_eq_true, Binder.byParams_guards]
      rintro ⟨i, x, rfl, hx⟩
      exact hfree ⟨i, x, [], rfl, hbound hx⟩
  | @replaced bound t t' u halike hlen _ hfree hu ih =>
    refine .replaced halike hlen (fun k m m' hm hm' => ?_) ?_ hu
    · exact ih k m m' hm hm' (hnames hbound _) (hspar.part hm)
    · rw [← Bool.not_eq_true, Binder.lexical_guards]
      rintro ⟨i, x, ts, rfl, hx⟩
      rcases hspar (.here _) (List.mem_append_left _ hx) with ⟨rfl, hx⟩ | hspare
      · rw [← Bool.not_eq_true, Binder.byParams_guards] at hfree
        exact hfree ⟨i, x, rfl, by simpa [Binder.along] using hx⟩
      · -- The type arguments may have changed, but not the name.
        obtain ⟨ts', rfl⟩ : ∃ ts', t' = .ref i [x] ts' := by
          cases halike with
          | leaf => exact ⟨ts, rfl⟩
          | ref _ _ _ ts' => exact ⟨ts', rfl⟩
        cases hu.symm.trans (hspare.value? i ts')

/-- Is no key of the substitution a reference to the name? -/
def Substitution.spares (sub : Substitution) (x : Ident) : Bool :=
  sub.all fun e =>
    match e.1 with
    | .ref _ [y] _ => x != y
    | _ => true

/-- Does the node bind no names but these, with the key of a mapped type spared, and refer with type
arguments only to other names or to spared ones? -/
def Substitution.sparesAt (sub : Substitution) (names : List Ident) (n : Node) : Bool :=
  n.tparams.all (names.contains ·.name) && n.typeKey?.all (fun x => names.contains x && sub.spares x) &&
    match n with
    | .ty (.ref _ [x] ts) => ts.isEmpty || !names.contains x || sub.spares x
    | _ => true

theorem Substitution.spares_of_all {sub : Substitution} {x : Ident} (h : sub.spares x = true) :
    sub.Spares x := by
  intro e he i ts heq
  have hx := List.all_eq_true.1 h e he
  simp [heq] at hx

theorem Substitution.SparesBound.of_allTo {sub : Substitution} (names : List Ident) (depth : Nat)
    (h : n.allTo (sub.sparesAt names) depth = true) : sub.SparesBound [] [] n := by
  intro way i x ts hway hx
  obtain ⟨hhere, hnodes⟩ := hway.of_allTo h
  obtain ⟨e, he, hx⟩ := List.mem_flatMap.1 hx
  have hnode := hnodes e he
  simp only [sparesAt, Bool.and_eq_true] at hhere hnode
  rcases List.mem_append.1 hx with hx | hx
  · obtain ⟨p, hp, rfl⟩ := List.mem_map.1 hx
    cases ts with
    | nil => exact .inl ⟨rfl, List.mem_flatMap.2 ⟨e, he, List.mem_map_of_mem hp⟩⟩
    | cons t ts =>
      have hname : names.contains p.name = true := List.all_eq_true.1 hnode.1.1 p hp
      have hspar := hhere.2
      rw [hname] at hspar
      exact .inr (spares_of_all hspar)
  · rw [Option.mem_toList.1 hx, Option.all_some, Bool.and_eq_true] at hnode
    exact .inr (spares_of_all hnode.1.2.2)

/-- **Types are replaced where names are not bound.** For every substitution and every type, signature or
file, a walk gives the one tree in which, from the inside out, every type that equals a key is replaced by
the value of the key, as it is, except references without type arguments to a type parameter around. It
respects what else binds, the keys of mapped types around and type parameters that are written with type
arguments, wherever no key of the substitution is a reference of such a name. -/
theorem substitution_respects_binders (sub : Substitution) {n n' : Node}
    (h : sub.inNode? n = some n') :
    (∀ m, n.Replaced sub .byParams [] m ↔ m = n') ∧
      (sub.SparesBound [] [] n → ∀ m, n.Replaced sub .lexical [] m ↔ m = n') := by
  have hwalk := Substitution.inNode?_replaced h
  refine ⟨fun m => ⟨hwalk.unique, ?_⟩, fun hspares m => ?_⟩
  · rintro rfl
    exact hwalk
  · have hlexical := hwalk.lexical (List.Subset.refl _) hspares
    refine ⟨hlexical.unique, ?_⟩
    rintro rfl
    exact hlexical

/-- `Foo` by `Bar`, and `Array<Bar>` by `Items<Foo>`. -/
def fooByBar : Substitution :=
  [(.reference ["Foo"] [], .reference ["Bar"] []),
   (.reference ["Array"] [.reference ["Bar"] []], .reference ["Items"] [.reference ["Foo"] []])]

/-- `value: t` and `items: Array<u>`. -/
def valueAndItems (t : Ty) (items : Ty) : List Member := [.ofType "value" t, .ofType "items" items]

/-- `interface Generic<Foo> { value: Foo; items: Array<Foo> }`, then the same in `interface Plain` with
other types, and `type M = { [K in "a"]: K }`. -/
def shadowing (value items : Ty) : File :=
  File.ofMembers "lib"
    [.iface ⟨{}, true, "Generic", [.ofName "Foo"], [],
      valueAndItems (.reference ["Foo"] []) (.reference ["Array"] [.reference ["Foo"] []]), .noPath⟩,
     .ofInterface "Plain" (valueAndItems value items),
     .ofAlias "M" (.ofMembers [.mapped ⟨{}, .default, .noop, "K", .strLit "a", none, .noop,
       .reference ["K"] []⟩])]

/-- In `Generic` the name `Foo` is bound. In `Plain` it is replaced first, then `Array<Bar>`, and what is put
there stays as it is. -/
theorem substitution_respects_binders_generic :
    fooByBar.SparesBound [] [] (.file (shadowing (.reference ["Foo"] [])
      (.reference ["Array"] [.reference ["Foo"] []]))) ∧
    ∃ f, (f == shadowing (.reference ["Bar"] []) (.reference ["Items"] [.reference ["Foo"] []])) = true ∧
      ∀ m, (Node.file (shadowing (.reference ["Foo"] [])
        (.reference ["Array"] [.reference ["Foo"] []]))).Replaced fooByBar .lexical [] m ↔ m = .file f := by
  have hspares : fooByBar.SparesBound [] [] (.file (shadowing (.reference ["Foo"] [])
      (.reference ["Array"] [.reference ["Foo"] []]))) :=
    Substitution.SparesBound.of_allTo ["Foo", "K"] 8 (by decide +kernel)
  exact ⟨hspares, _, by decide +kernel, (substitution_respects_binders fooByBar rfl).2 hspares⟩

-- The key of a mapped type is replaced where the substitution has a reference of its name.
example : ((Substitution.inTy [(.reference ["K"] [], .number)] (.ofMembers [.mapped ⟨{}, .default, .noop, "K",
    .strLit "a", none, .noop, .reference ["K"] []⟩])).value ==
    .ofMembers [.mapped ⟨{}, .default, .noop, "K", .strLit "a", none, .noop, .number⟩]) = true := by
  decide +kernel

end Ambient
