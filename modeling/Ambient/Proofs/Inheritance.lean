import Ambient.Proofs.Binding
import Ambient.Proofs.FreeParams
import Ambient.Proofs.Stable
import Ambient.Scope.Constructors

/-!
# Inherited signatures

A constructor comes to a class through the references between it and the class that declares it. Each
reference gives types for the type parameters of the class that it refers to, and a type parameter for
which it gives none stands for its default, or else for `any`.

* `Ancestor.Instantiates`: what the type parameters of a class stand for. A default may mention other
  type parameters, which then stand for something themselves.
* `Inherited`: what becomes of a signature, one class after the other.
* `StaysFree`: the names that are free in it afterwards.
* `inherit`: what is computed. A default is taken as it is written, and what is put in may be captured, so
  it is the inherited signature only on `Smooth` ways (`inherited_iff`, `staysFree_of_free`).
-/

namespace Ambient

/-- A class on the way to inherited constructors, with the type arguments of the reference to it. -/
structure Ancestor where
  cls : ClassDecl
  targs : List Ty

/-! ## What type parameters stand for -/

/-- The names of type parameters with what stands for them, unless that is the type parameter itself. -/
def standIns (ps : List TypeParam) (args : List Ty) : List (Ident × Ty) :=
  ((ps.map (·.name)).zip args).filter fun e => !e.2.isNamed e.1

/-- Types in the place of type parameters. Of two type parameters of one name the later counts. -/
def assigned (ps : List TypeParam) (args : List Ty) : Assignment := fun x u =>
  (standIns ps args).reverse.lookup x = some u

/-- What the type parameter stands for, if `given` is the argument for it and the other type parameters
stand for what `σ` says. -/
inductive TypeParam.StandsFor (σ : Assignment) (p : TypeParam) : (given : Option Ty) → Ty → Prop
  | given (t : Ty) : StandsFor σ p (some t) t
  | default {d t : Ty} (hd : p.default = some d)
    (h : (Node.ty d).Substituted (fun x u => σ x u ∧ x ≠ p.name) (fun _ => False) (.ty t)) :
    StandsFor σ p none t
  | any (hd : p.default = none) : StandsFor σ p none .any

/-- The types `args` stand for the type parameters of the class. -/
structure Ancestor.Instantiates (a : Ancestor) (σ : Assignment) (args : List Ty) : Prop where
  length : args.length = a.cls.tparams.length
  each : ∀ {k : Nat} {p : TypeParam} {t : Ty}, a.cls.tparams[k]? = some p → args[k]? = some t →
    p.StandsFor σ a.targs[k]? t
  assigned : σ = assigned a.cls.tparams args

/-- The signature `s'` is `s` with what the type parameters of the class stand for in their place. -/
def Ancestor.Passes (a : Ancestor) (s s' : Signature) : Prop :=
  ∃ σ args, a.Instantiates σ args ∧ (Node.sig s).Substituted σ (fun _ => False) (.sig s')

/-- The signature `s'` is what comes of `s` through the classes, the last of which declares it. -/
def Inherited : List Ancestor → Signature → Signature → Prop
  | [], s, s' => s' = s
  | a :: as, s, s' => ∃ t, Inherited as s t ∧ a.Passes t s'

/-- The names that a reference brings in: those of its type arguments, and those of the defaults that it
leaves in force, except for the type parameters of the class. -/
def Ancestor.Brings (a : Ancestor) (x : Ident) : Prop :=
  (∃ t ∈ a.targs, (Node.ty t).Free x) ∨
    ∃ (k : Nat) (p : TypeParam), a.cls.tparams[k]? = some p ∧ a.targs[k]? = none ∧
      ((∃ d, p.default = some d ∧ (Node.ty d).Free x ∧ x ∉ a.cls.tparams.map (·.name)) ∨
        p.default = none ∧ (Node.ty .any).Free x)

/-- The names that are free in a signature after it came through the classes: the type parameters of each
class are replaced, and what the reference to it brings in takes their place. -/
def StaysFree : List Ancestor → Signature → Ident → Prop
  | [], s, x => (Node.sig s).Free x
  | a :: as, s, x => StaysFree as s x ∧ x ∉ a.cls.tparams.map (·.name) ∨ a.Brings x

/-! ## What is computed -/

namespace Ancestor

def arguments (a : Ancestor) : List Ty := (argumentsFor a.cls.tparams a.targs).map (·.2)

def instantiate (a : Ancestor) (s : Signature) : Signature :=
  let sub := instantiation a.cls.tparams a.targs
  if sub.isEmpty then s else (sub.inSignature s).value

/-- A default that is left in force mentions no type parameters of the class but such as are given
themselves for arguments. -/
def PlainDefaults (a : Ancestor) : Prop :=
  ∀ (k : Nat) (p : TypeParam) (d : Ty) (x : Ident), a.cls.tparams[k]? = some p → a.targs[k]? = none →
    p.default = some d → (Node.ty d).Free x → ∀ (j : Nat) (q : TypeParam), a.cls.tparams[j]? = some q →
      q.name = x → ∃ t, a.targs[j]? = some t ∧ t.isNamed x = true

end Ancestor

/-- The signature after it came through the classes. -/
def inherit (as : List Ancestor) (s : Signature) : Signature := as.foldr Ancestor.instantiate s

/-- Types can be put in the place of free names as they are. No name of theirs gets bound, and a bound
name that is not to be replaced is that of a type parameter. -/
structure Node.Admits (n : Node) (σ : Assignment) : Prop where
  free : ∀ {way i x ts u}, n.Leads way (.ty (.ref i [x] ts)) → σ x u → ¬ way.Bound x →
    ts = [] ∧ ∀ y, (Node.ty u).Free y → ¬ way.Bound y
  bound : ∀ {way i x u}, n.Leads way (.ty (.ref i [x] [])) → σ x u → way.Bound x → way.HasParam x

/-- Nothing is in the way of the signature coming through the classes. -/
def Smooth : List Ancestor → Signature → Prop
  | [], _ => True
  | a :: as, s => Smooth as s ∧ a.PlainDefaults ∧
      (Node.sig (inherit as s)).Admits (assigned a.cls.tparams a.arguments)

/-! ## Assigned types -/

variable {k depth : Nat} {n : Node} {s : Signature} {p : TypeParam}

section
variable {ps : List TypeParam} {args : List Ty} {x : Ident} {u : Ty}

theorem assigned_unique (ps : List TypeParam) (args : List Ty) (x : Ident) (u u' : Ty)
    (h : assigned ps args x u) (h' : assigned ps args x u') : u = u' :=
  Option.some.inj (h.symm.trans h')

theorem assigned_position (h : assigned ps args x u) :
    ∃ (k : Nat) (p : TypeParam), ps[k]? = some p ∧ p.name = x ∧ args[k]? = some u ∧
      u.isNamed x = false := by
  have hmem := List.mem_reverse.1 (mem_of_lookup h)
  obtain ⟨hzip, hself⟩ := List.mem_filter.1 hmem
  obtain ⟨k, hk⟩ := List.mem_iff_getElem?.1 hzip
  obtain ⟨hname, harg⟩ := List.getElem?_zip_eq_some.1 hk
  rw [List.getElem?_map] at hname
  obtain ⟨p, hp, rfl⟩ := Option.map_eq_some_iff.1 hname
  exact ⟨k, p, hp, rfl, harg, by simpa using hself⟩

theorem isNamed_of_not_assigned (h : ∀ u, ¬ assigned ps args x u) (hp : ps[k]? = some p)
    (hx : p.name = x) (hu : args[k]? = some u) : u.isNamed x = true := by
  by_contra hself
  have hname : (ps.map (·.name))[k]? = some x := by rw [List.getElem?_map, hp, Option.map_some, hx]
  have hzip : (x, u) ∈ (ps.map (·.name)).zip args :=
    List.mem_of_getElem? (List.getElem?_zip_eq_some.2 ⟨hname, hu⟩)
  have hmem : (x, u) ∈ standIns ps args := List.mem_filter.2 ⟨hzip, by simpa using hself⟩
  cases hfound : (standIns ps args).reverse.lookup x with
  | some v => exact h v hfound
  | none => simpa using List.lookup_eq_none_iff.1 hfound _ (List.mem_reverse.2 hmem)

end

/-! ## The substitution of a reference -/

variable {as : List Ancestor} {names : List Ident} {m : Node} {way : Node.Way} {κ κ' α : Type}

theorem put_map [BEq κ] [BEq κ'] {f : κ → κ'} (hf : ∀ k k', (f k == f k') = (k == k')) (k : κ) (a : α)
    (l : List (κ × α)) :
    put (f k) a (l.map fun e => (f e.1, e.2)) = (put k a l).map fun e => (f e.1, e.2) := by
  induction l with
  | nil => rfl
  | cons e l ih =>
    rw [List.map_cons, put, put, hf, ih]
    split <;> rfl

theorem putAll_map [BEq κ] [BEq κ'] {f : κ → κ'} (hf : ∀ k k', (f k == f k') = (k == k'))
    (pairs : List (κ × α)) :
    putAll (pairs.map fun e => (f e.1, e.2)) = (putAll pairs).map fun e => (f e.1, e.2) := by
  suffices h : ∀ done : List (κ × α),
      (pairs.map fun e => (f e.1, e.2)).foldl (fun done e => put e.1 e.2 done)
          (done.map fun e => (f e.1, e.2)) =
        (pairs.foldl (fun done e => put e.1 e.2 done) done).map fun e => (f e.1, e.2) from h []
  induction pairs with
  | nil => exact fun _ => rfl
  | cons e pairs ih =>
    intro done
    rw [List.map_cons, List.foldl_cons, List.foldl_cons, put_map hf, ih]

theorem Ty.ref_beq_ref (x y : Ident) : (Ty.ref {} [x] [] == Ty.ref {} [y] []) = (x == y) :=
  Ty.named_beq x _

theorem argumentsFor_eq (ps : List TypeParam) (targs : List Ty) :
    argumentsFor ps targs = ((ps.map (·.name)).zip ((argumentsFor ps targs).map (·.2))).map
      fun e => (.ref {} [e.1] [], e.2) := by
  induction ps generalizing targs with
  | nil => cases targs <;> rfl
  | cons p ps ih =>
    cases targs with
    | nil => exact congrArg _ (ih [])
    | cons t targs => exact congrArg _ (ih targs)

theorem argumentsFor_getElem? {ps : List TypeParam} {targs : List Ty} (hp : ps[k]? = some p) :
    ((argumentsFor ps targs).map (·.2))[k]? = some (targs[k]?.getD (p.default.getD .any)) := by
  induction ps generalizing targs k with
  | nil => cases hp
  | cons q ps ih =>
    cases targs with
    | nil =>
      cases k with
      | zero =>
        cases hp
        rfl
      | succ k => exact (ih hp).trans (by simp)
    | cons t targs =>
      cases k with
      | zero => rfl
      | succ k => exact (ih hp).trans (by simp)

theorem length_argumentsFor (ps : List TypeParam) (targs : List Ty) :
    (argumentsFor ps targs).length = ps.length := by
  induction ps generalizing targs with
  | nil => cases targs <;> rfl
  | cons p ps ih => cases targs <;> exact congrArg Nat.succ (ih _)

theorem instantiation_eq (ps : List TypeParam) (targs : List Ty) :
    instantiation ps targs =
      (putAll (standIns ps ((argumentsFor ps targs).map (·.2)))).map
        fun e => (.ref {} [e.1] [], e.2) := by
  have hself : ((argumentsFor ps targs).filter fun e => !(e.1 == e.2)) =
      (standIns ps ((argumentsFor ps targs).map (·.2))).map fun e => (.ref {} [e.1] [], e.2) := by
    conv_lhs => rw [argumentsFor_eq]
    rw [List.filter_map, standIns]
    simp only [Function.comp_def, Ty.named_beq]
  rw [← putAll_map Ty.ref_beq_ref, ← hself]
  rfl

theorem standIn?_map (l : List (Ident × Ty)) (x : Ident) :
    Substitution.standIn? (l.map fun e => (.ref {} [e.1] [], e.2)) x = l.lookup x := by
  induction l with
  | nil => rfl
  | cons e l ih =>
    rw [Substitution.standIn?] at ih ⊢
    rw [List.map_cons, List.find?_cons, Ty.ref_beq_ref, List.lookup_cons, BEq.comm]
    cases x == e.1 with
    | true => rfl
    | false => exact ih

namespace Ancestor

variable {a : Ancestor}

theorem standIn?_instantiation (a : Ancestor) (x : Ident) (u : Ty) :
    (instantiation a.cls.tparams a.targs).standIn? x = some u ↔
      assigned a.cls.tparams a.arguments x u := by
  rw [instantiation_eq, standIn?_map, lookup_putAll]
  rfl

theorem keys_instantiation (a : Ancestor) :
    ∀ e ∈ instantiation a.cls.tparams a.targs, ∃ x, e.1 = .ref {} [x] [] := by
  rw [instantiation_eq]
  intro e he
  obtain ⟨e, -, rfl⟩ := List.mem_map.1 he
  exact ⟨e.1, rfl⟩

end Ancestor

namespace Substitution

variable {sub : Substitution}

theorem standIn?_cons (y : Ident) (u : Ty) (sub : Substitution) (x : Ident) :
    standIn? ((.ref {} [y] [], u) :: sub) x = if y = x then some u else sub.standIn? x := by
  rw [standIn?, List.find?_cons, Ty.ref_beq_ref]
  by_cases h : y = x
  · rw [if_pos h, beq_iff_eq.2 h]
    rfl
  · rw [if_neg h, beq_false_of_ne h]
    rfl

theorem standIn?_under (hkeys : ∀ e ∈ sub, ∃ x, e.1 = .ref {} [x] []) (n : Node) (x : Ident) :
    (sub.under n).standIn? x = if x ∈ n.tparams.map (·.name) then none else sub.standIn? x := by
  induction sub with
  | nil => exact (ite_self _).symm
  | cons e sub ih =>
    obtain ⟨k, u⟩ := e
    obtain ⟨y, rfl⟩ : ∃ y, k = .ref {} [y] [] := hkeys _ (.head _)
    have ih := ih fun e he => hkeys e (.tail _ he)
    have hbinds : bindsReference n.tparams (.ref {} [y] []) = true ↔ y ∈ n.tparams.map (·.name) := by
      simp [bindsReference]
    rw [standIn?_cons, under, List.filter_cons]
    by_cases hy : y ∈ n.tparams.map (·.name)
    · rw [if_neg (by simpa using hbinds.2 hy)]
      refine ih.trans ?_
      by_cases hx : x ∈ n.tparams.map (·.name)
      · rw [if_pos hx, if_pos hx]
      · have hne : y ≠ x := fun h => hx (h ▸ hy)
        rw [if_neg hx, if_neg hx, if_neg hne]
    · rw [if_pos (by simpa using mt hbinds.1 hy), standIn?_cons]
      by_cases hx : y = x
      · rw [if_pos hx, if_pos hx, if_neg (hx ▸ hy)]
      · rw [if_neg hx, if_neg hx]
        exact ih

theorem standIn?_along (hkeys : ∀ e ∈ sub, ∃ x, e.1 = .ref {} [x] []) (way : Node.Way) (x : Ident)
    (u : Ty) :
    (sub.along way).standIn? x = some u ↔ ¬ way.HasParam x ∧ sub.standIn? x = some u := by
  induction way generalizing sub with
  | nil =>
    have hnone : ¬ Node.Way.HasParam [] x := by
      rintro ⟨e, he, -⟩
      cases he
    exact ⟨fun h => ⟨hnone, h⟩, And.right⟩
  | cons e way ih =>
    have hunder : ∀ e' ∈ sub.under e.1, ∃ x, e'.1 = .ref {} [x] [] := fun e' he' =>
      hkeys e' (List.mem_filter.1 he').1
    refine (ih hunder).trans ?_
    rw [Node.Way.hasParam_cons, standIn?_under hkeys]
    by_cases hx : x ∈ e.1.tparams.map (·.name)
    · simp [hx]
    · simp [hx]

end Substitution

namespace Ancestor

variable {a : Ancestor}

/-- The substitution of a reference replaces free names as it should, where types can be put in as they
are. -/
theorem realises (h : n.Admits (assigned a.cls.tparams a.arguments)) :
    (instantiation a.cls.tparams a.targs).Realises (assigned a.cls.tparams a.arguments) n where
  keys := keys_instantiation a
  replaced {way i x u} hway hu := by
    obtain ⟨hparam, hu⟩ := (Substitution.standIn?_along (keys_instantiation a) way x u).1 hu
    have hu := (standIn?_instantiation a x u).1 hu
    have hx : ¬ way.Bound x := fun hx => hparam (h.bound hway hu hx)
    exact ⟨hu, hx, (h.free hway hu hx).2⟩
  kept {way i x ts u} hway hnone hu := by
    by_contra hx
    obtain ⟨hts, -⟩ := h.free hway hu hx
    have hsome := (Substitution.standIn?_along (keys_instantiation a) way x u).2
      ⟨fun hparam => hx hparam.bound, (standIn?_instantiation a x u).2 hu⟩
    rw [hnone hts] at hsome
    cases hsome

/-- **One class on the way.** -/
theorem instantiate_substituted (h : (Node.sig s).Admits (assigned a.cls.tparams a.arguments)) :
    (Node.sig s).Substituted (assigned a.cls.tparams a.arguments) (fun _ => False)
      (.sig (a.instantiate s)) := by
  unfold instantiate
  by_cases hempty : (instantiation a.cls.tparams a.targs).isEmpty = true
  · rw [if_pos hempty]
    refine .sig_self fun x u _ hu => ?_
    have hsome := (standIn?_instantiation a x u).2 hu
    rw [List.isEmpty_iff.1 hempty] at hsome
    cases hsome
  · rw [if_neg hempty]
    exact Substitution.inSignature_substituted (realises h)

/-! ## Defaults -/

theorem arguments_getElem? (hp : a.cls.tparams[k]? = some p) :
    a.arguments[k]? = some (a.targs[k]?.getD (p.default.getD .any)) :=
  argumentsFor_getElem? hp

variable {x : Ident}

variable {args : List Ty} {u : Ty}

theorem PlainDefaults.not_assigned (h : a.PlainDefaults)
    (hargs : ∀ {j : Nat} {u t : Ty}, args[j]? = some u → a.targs[j]? = some t → u = t)
    (hp : a.cls.tparams[k]? = some p) (hk : a.targs[k]? = none) {d : Ty} (hd : p.default = some d)
    (hx : (Node.ty d).Free x) (u : Ty) : ¬ assigned a.cls.tparams args x u := by
  intro hu
  obtain ⟨j, q, hq, hname, hj, hself⟩ := assigned_position hu
  obtain ⟨t, ht, hnamed⟩ := h k p d x hp hk hd hx j q hq hname
  rw [hargs hj ht, hnamed] at hself
  cases hself

theorem arguments_given {t : Ty} (hu : a.arguments[k]? = some u) (ht : a.targs[k]? = some t) : u = t := by
  obtain ⟨hk, -⟩ := List.getElem?_eq_some_iff.1 hu
  rw [arguments, List.length_map, length_argumentsFor] at hk
  rw [arguments_getElem? (List.getElem?_eq_getElem hk), ht] at hu
  exact (Option.some.inj hu).symm

theorem PlainDefaults.instantiates (h : a.PlainDefaults) :
    a.Instantiates (assigned a.cls.tparams a.arguments) a.arguments where
  length := by rw [arguments, List.length_map, length_argumentsFor]
  each {k p t} hp ht := by
    rw [arguments_getElem? hp, Option.some.injEq] at ht
    subst ht
    cases hk : a.targs[k]? with
    | some t => exact .given t
    | none =>
      cases hd : p.default with
      | none => exact .any hd
      | some d =>
        exact .default hd (.ty_self fun x u hx hu => h.not_assigned arguments_given hp hk hd hx u hu.1)
  assigned := rfl

theorem PlainDefaults.unique (h : a.PlainDefaults) {σ : Assignment} (hσ : a.Instantiates σ args) :
    args = a.arguments := by
  have hlen : args.length = a.arguments.length := hσ.length.trans h.instantiates.length.symm
  refine List.ext_getElem hlen fun k hk hk' => ?_
  obtain ⟨p, hp⟩ : ∃ p, a.cls.tparams[k]? = some p := ⟨_, List.getElem?_eq_getElem (hσ.length ▸ hk)⟩
  have hstd := hσ.each hp (List.getElem?_eq_getElem hk)
  have hgiven : ∀ {j : Nat} {u t : Ty}, args[j]? = some u → a.targs[j]? = some t → u = t := by
    intro j u t hu ht
    obtain ⟨q, hq⟩ : ∃ q, a.cls.tparams[j]? = some q :=
      ⟨_, List.getElem?_eq_getElem (hσ.length ▸ (List.getElem?_eq_some_iff.1 hu).1)⟩
    have hq := hσ.each hq hu
    rw [ht] at hq
    cases hq
    rfl
  have hwr := arguments_getElem? hp
  rw [List.getElem?_eq_getElem hk', Option.some.injEq] at hwr
  rw [hwr]
  cases hmiss : a.targs[k]? with
  | some t => exact hgiven (List.getElem?_eq_getElem hk) hmiss
  | none =>
    rw [hmiss] at hstd
    generalize args[k] = t at hstd
    cases hstd with
    | any hd => rw [hd]; rfl
    | @default d _ hd hsub =>
      have hself : (Node.ty d).Substituted (fun x u => σ x u ∧ x ≠ p.name) (fun _ => False) (.ty d) :=
        .ty_self fun x u hx hu =>
          h.not_assigned hgiven hp hmiss hd hx u (hσ.assigned ▸ hu.1)
      have hσu : ∀ x u u', σ x u ∧ x ≠ p.name → σ x u' ∧ x ≠ p.name → u = u' := by
        rintro x u u' ⟨hu, -⟩ ⟨hu', -⟩
        rw [hσ.assigned] at hu hu'
        exact assigned_unique _ _ _ _ _ hu hu'
      rw [hd]
      exact Node.ty.inj (hself.unique hσu hsub)

/-- **What a class passes on** is computed, where nothing is in the way. -/
theorem passes_iff (hdef : a.PlainDefaults)
    (h : (Node.sig s).Admits (assigned a.cls.tparams a.arguments)) (s' : Signature) :
    a.Passes s s' ↔ s' = a.instantiate s := by
  have hsub := instantiate_substituted h
  constructor
  · rintro ⟨σ, args, hσ, hs'⟩
    obtain rfl := hσ.assigned
    obtain rfl := hdef.unique hσ
    exact Node.sig.inj (hsub.unique (assigned_unique _ _) hs')
  · rintro rfl
    exact ⟨_, _, hdef.instantiates, hsub⟩

theorem PlainDefaults.brings (h : a.PlainDefaults) (hp : a.cls.tparams[k]? = some p)
    (hu : a.arguments[k]? = some u) (hx : (Node.ty u).Free x) : a.Brings x := by
  rw [arguments_getElem? hp, Option.some.injEq] at hu
  subst hu
  cases hk : a.targs[k]? with
  | some t =>
    rw [hk] at hx
    exact .inl ⟨t, List.mem_of_getElem? hk, hx⟩
  | none =>
    cases hd : p.default with
    | none =>
      rw [hk, hd] at hx
      exact .inr ⟨k, p, hp, hk, .inr ⟨hd, hx⟩⟩
    | some d =>
      rw [hk, hd] at hx
      by_cases hmem : x ∈ a.cls.tparams.map (·.name)
      · obtain ⟨q, hq, hname⟩ := List.mem_map.1 hmem
        obtain ⟨j, hj⟩ := List.mem_iff_getElem?.1 hq
        obtain ⟨t, ht, hnamed⟩ := h k p d x hp hk hd hx j q hj hname
        exact .inl ⟨t, List.mem_of_getElem? ht, Node.free_of_isNamed hnamed⟩
      · exact .inr ⟨k, p, hp, hk, .inl ⟨d, hd, hx, hmem⟩⟩

/-- What is free in a signature that a class passes on was free and is no type parameter of the class, or
was brought in. -/
theorem PlainDefaults.free_passed (h : a.PlainDefaults) {s' : Signature} (hs' : a.Passes s s')
    (hx : (Node.sig s').Free x) :
    (Node.sig s).Free x ∧ x ∉ a.cls.tparams.map (·.name) ∨ a.Brings x := by
  obtain ⟨σ, args, hσ, hsub⟩ := hs'
  obtain rfl := hσ.assigned
  obtain rfl := h.unique hσ
  obtain ⟨hfree, hkept⟩ | ⟨y, u, -, -, hu, hxu⟩ := hsub.free hx not_false
  · by_cases hmem : x ∈ a.cls.tparams.map (·.name)
    · obtain ⟨p, hp, hname⟩ := List.mem_map.1 hmem
      obtain ⟨k, hk⟩ := List.mem_iff_getElem?.1 hp
      have harg := arguments_getElem? hk
      exact .inr (h.brings hk harg (Node.free_of_isNamed (isNamed_of_not_assigned hkept hk hname harg)))
    · exact .inl ⟨hfree, hmem⟩
  · obtain ⟨k, p, hp, -, hk, -⟩ := assigned_position hu
    exact .inr (h.brings hp hk hxu)

end Ancestor

/-! ## Names that are kept apart -/

/-- Is the node no mention of one of the names? -/
def Node.avoids (names : List Ident) : Node → Bool
  | .ty (.ref _ [x] _) => !names.contains x
  | _ => true

/-- Does the node bind no names but these, and give no type arguments to the type parameters `ps`? -/
def Node.bindsAmong (names ps : List Ident) (n : Node) : Bool :=
  n.tparams.all (names.contains ·.name) && n.typeKey?.all names.contains && !n.isConditional &&
    match n with
    | .ty (.ref _ [x] ts) => ts.isEmpty || !ps.contains x
    | _ => true

theorem Node.Leads.of_allTo {p : Node → Bool} (hway : n.Leads way m) (h : n.allTo p depth = true) :
    p m = true ∧ ∀ e ∈ way, p e.1 = true := by
  induction hway generalizing depth with
  | here n =>
    cases depth with
    | zero => cases h
    | succ depth =>
      rw [allTo, Bool.and_eq_true] at h
      exact ⟨h.1, fun _ he => by cases he⟩
  | part hm _ ih =>
    cases depth with
    | zero => cases h
    | succ depth =>
      rw [allTo, Bool.and_eq_true] at h
      obtain ⟨hm', hway⟩ := ih (List.all_eq_true.1 h.2 _ (List.mem_of_getElem? hm))
      exact ⟨hm', List.forall_mem_cons.2 ⟨h.1, hway⟩⟩

theorem Node.Free.of_avoids (h : n.allTo (avoids names) depth = true) {x : Ident} (hx : n.Free x) :
    x ∉ names := by
  obtain ⟨way, i, ts, hway, -⟩ := hx
  simpa [avoids] using (hway.of_allTo h).1

theorem Node.Leads.bound_among {ps : List Ident} (hway : n.Leads way m)
    (h : n.allTo (bindsAmong names ps) depth = true) {x : Ident} (hx : way.Bound x) : x ∈ names := by
  obtain ⟨e, he, hx⟩ := hx
  have hbinds := (hway.of_allTo h).2 e he
  simp only [bindsAmong, Bool.and_eq_true, Bool.not_eq_true'] at hbinds
  obtain ⟨⟨⟨hps, hkey⟩, hcond⟩, -⟩ := hbinds
  rcases hx with hx | hx | ⟨hx, -⟩
  · obtain ⟨p, hp, rfl⟩ := List.mem_map.1 hx
    simpa using List.all_eq_true.1 hps p hp
  · rw [hx] at hkey
    simpa using hkey
  · rw [hcond] at hx
    cases hx

/-- The type parameters of a class can be replaced where none of them, and no name that their arguments
mention, is bound. -/
theorem Ancestor.admits_of_apart {a : Ancestor} (names : List Ident) (depth : Nat)
    (h : n.allTo (Node.bindsAmong names (a.cls.tparams.map (·.name))) depth = true)
    (hps : ∀ p ∈ a.cls.tparams, p.name ∉ names)
    (hargs : ∀ u ∈ a.arguments, (Node.ty u).allTo (Node.avoids names) depth = true) :
    n.Admits (assigned a.cls.tparams a.arguments) := by
  refine ⟨fun {way i x ts u} hway hu _ => ?_, fun {way i x u} hway hu hx => ?_⟩
  all_goals
    obtain ⟨k, p, hp, rfl, harg, -⟩ := assigned_position hu
    have hmem := List.mem_of_getElem? hp
  · have hmnt := (hway.of_allTo h).1
    rw [Node.bindsAmong, Bool.and_eq_true] at hmnt
    refine ⟨?_, fun y hy hb => ?_⟩
    · simpa [List.mem_map_of_mem hmem] using hmnt.2
    · exact hy.of_avoids (hargs u (List.mem_of_getElem? harg)) (hway.bound_among h hb)
  · exact absurd (hway.bound_among h hx) (hps p hmem)

theorem Ancestor.PlainDefaults.of_avoids {a : Ancestor} (depth : Nat)
    (h : ∀ p ∈ a.cls.tparams, ∀ d, p.default = some d →
      (Node.ty d).allTo (Node.avoids (a.cls.tparams.map (·.name))) depth = true) : a.PlainDefaults := by
  intro k p d x hp _ hd hx j q hq hname
  have hmem : x ∈ a.cls.tparams.map (·.name) := List.mem_map.2 ⟨q, List.mem_of_getElem? hq, hname⟩
  exact absurd hmem (hx.of_avoids (h p (List.mem_of_getElem? hp) d hd))

/-! ## All the way -/

/-- **What is computed is the inherited signature**, and the only one. By induction on the classes: the
signature comes to the first through all others. -/
theorem inherited_iff (h : Smooth as s) (s' : Signature) : Inherited as s s' ↔ s' = inherit as s := by
  induction as generalizing s' with
  | nil => exact Iff.rfl
  | cons a as ih =>
    obtain ⟨hrest, hdef, hadm⟩ := h
    constructor
    · rintro ⟨t, ht, hs'⟩
      obtain rfl := (ih hrest t).1 ht
      exact (Ancestor.passes_iff hdef hadm s').1 hs'
    · rintro rfl
      exact ⟨_, (ih hrest _).2 rfl, (Ancestor.passes_iff hdef hadm _).2 rfl⟩

/-- **No type parameter stays free**: what is free in the signature afterwards was brought in, or was free
in it and is no type parameter of any class on the way. -/
theorem staysFree_of_free (h : Smooth as s) {x : Ident} (hx : (Node.sig (inherit as s)).Free x) :
    StaysFree as s x := by
  induction as with
  | nil => exact hx
  | cons a as ih =>
    obtain ⟨hrest, hdef, hadm⟩ := h
    have hpass := (Ancestor.passes_iff hdef hadm _).2 rfl
    obtain ⟨hfree, hmem⟩ | hbrg := hdef.free_passed hpass hx
    · exact .inl ⟨ih hrest hfree, hmem⟩
    · exact .inr hbrg

end Ambient
