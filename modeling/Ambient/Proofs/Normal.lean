import Ambient.Pipeline
import Ambient.Proofs.Asking
import Ambient.Proofs.Equal
import Ambient.Proofs.Hoisted
import Ambient.Proofs.Overloads

/-!
# Normal form

A file is in normal form if none of the idioms is left in it that the steps replace (`Root.Normal`).
What a step has to look up may depend on what was asked before, so where that matters nothing that may
be answered is to be acted upon.

Three things are apart, since a run leaves them done: every declaration has its place (`File.InPlace`),
no comment is repeated (`File.Uncluttered`), and outside type parameters every literal that gets a name
has one (`Root.Named`).

Each step gives a file in normal form back as it was (`setCodePaths_rests`, `simplifyTypes_rests` and so on).
-/

namespace Ambient

/-! ## The nodes of a file -/

/-- The node is in the file. -/
inductive File.Contains (f : File) : Node → Prop
  | file : Contains f (.file f)
  | child {n m : Node} (hn : Contains f n) (hm : m ∈ n.children) : Contains f m

/-- The scope inside a node of the file. -/
structure Root.At (root : Root) (f : File) (s : Scope) (n : Node) : Prop where
  inside : root.Inside f s
  current : s.current? = some n

variable {p : CodePath} {d : Decl} {lib : Ident} {ds : List Decl} {ts : List Ty} {m : Member} {n : Node}
  {t : Ty} {α β : Type} {v : VarDecl}

theorem Root.At.contains {root : Root} {f : File} {s : Scope} (h : root.At f s n) : f.Contains n := by
  obtain ⟨hs, hn⟩ := h
  induction hs generalizing n with
  | file =>
    cases hn
    exact .file
  | child _ hn₀ hm ih =>
    cases hn
    exact .child (ih hn₀) hm

/-! ## Unions and intersections -/

/-- The types as members of a union in simplest form. -/
structure SimplestUnion (ts : List Ty) : Prop where
  flat : ∀ i us, .union i us ∉ ts
  different : ts.Pairwise fun t u => (t == u) = false
  several : 2 ≤ ts.length

/-- The types as members of an intersection in simplest form. -/
structure SimplestIntersection (ts : List Ty) : Prop where
  flat : ∀ i us, .intersect i us ∉ ts
  different : ts.Pairwise fun t u => (t == u) = false
  several : 2 ≤ ts.length
  objects : (ts.filterMap Ty.plainObject?).length ≤ 1

theorem distinct_eq_self [BEq α] {as : List α} (h : as.Pairwise fun a b => (a == b) = false) :
    distinct as = as := by
  induction h with
  | nil => rfl
  | cons ha _ ih =>
    rw [distinct, ih, List.filter_eq_self.2]
    intro b hb
    rw [ha b hb]
    rfl

theorem Ty.unionLeavesList_eq_self (h : ∀ i us, .union i us ∉ ts) : Ty.unionLeavesList ts = ts := by
  induction ts with
  | nil => rfl
  | cons t ts ih =>
    have ht : t.unionLeaves = [t] := by
      cases t with
      | union i us => exact absurd (.head _) (h i us)
      | _ => rfl
    rw [Ty.unionLeavesList, ht, ih fun i us hus => h i us (.tail _ hus)]
    rfl

theorem Ty.intersectLeavesList_eq_self (h : ∀ i us, .intersect i us ∉ ts) :
    Ty.intersectLeavesList ts = ts := by
  induction ts with
  | nil => rfl
  | cons t ts ih =>
    have ht : t.intersectLeaves = [t] := by
      cases t with
      | intersect i us => exact absurd (.head _) (h i us)
      | _ => rfl
    rw [Ty.intersectLeavesList, ht, ih fun i us hus => h i us (.tail _ hus)]
    rfl

theorem SimplestUnion.simplifyUnion_eq (h : SimplestUnion ts) : simplifyUnion ts = .union 0 ts := by
  rw [simplifyUnion, Ty.unionLeavesList_eq_self h.flat, distinct_eq_self h.different]
  match ts, h.several with
  | _ :: _ :: _, _ => rfl

theorem mergePlainObjects_eq_self (h : (ts.filterMap Ty.plainObject?).length ≤ 1) :
    mergePlainObjects ts = ts := by
  unfold mergePlainObjects
  split
  · rfl
  · rfl
  · rename_i hnil hone
    match hobjs : ts.filterMap Ty.plainObject?, h with
    | [], _ => exact absurd hobjs hnil
    | [o], _ => exact absurd hobjs (hone o)

theorem SimplestIntersection.simplifyIntersection_eq (h : SimplestIntersection ts) :
    simplifyIntersection ts = .intersect 0 ts := by
  rw [simplifyIntersection, Ty.intersectLeavesList_eq_self h.flat, distinct_eq_self h.different,
    mergePlainObjects_eq_self h.objects]
  match ts, h.several with
  | _ :: _ :: _, _ => rfl

theorem simplified?_union {i : NodeId} (h : SimplestUnion ts) : simplified? (.union i ts) = none := by
  have hsame : (Ty.union 0 ts == Ty.union i ts) = true := by
    show Ty.same _ _ = true
    simp [Ty.same, Ty.sameList_self]
  simp [simplified?, h.simplifyUnion_eq, hsame]

theorem simplified?_intersect {i : NodeId} (h : SimplestIntersection ts) :
    simplified? (.intersect i ts) = none := by
  have hsame : (Ty.intersect 0 ts == Ty.intersect i ts) = true := by
    show Ty.same _ _ = true
    simp [Ty.same, Ty.sameList_self]
  simp [simplified?, h.simplifyIntersection_eq, hsame]

/-! ## Callable values -/

/-- The type can only be called. -/
inductive Ty.Callable : Ty → Prop
  | function (s : Signature) : Callable (.function s)
  | object {i : NodeInfo} {ms : List Member} (hne : ms ≠ [])
    (h : ∀ m ∈ ms, ∃ c, m = .call c ∧ c.level = .default) : Callable (.object i ms)

/-- The member is a call signature that anyone may use. -/
def Member.Calls (m : Member) (s : Signature) : Prop :=
  ∃ c, m = .call c ∧ c.level = .default ∧ c.sig = s

/-- A value of the type can be called by these signatures, and nothing else can be done with it. -/
inductive Ty.CalledBy : Ty → List Signature → Prop
  | function (s : Signature) : CalledBy (.function s) [s]
  | object {i : NodeInfo} {ms : List Member} {sigs : List Signature} (hne : ms ≠ [])
    (h : List.Forall₂ Member.Calls ms sigs) : CalledBy (.object i ms) sigs

theorem exists_of_forall₂ {R : α → β → Prop} {as : List α} {bs : List β} (h : List.Forall₂ R as bs)
    {a : α} (ha : a ∈ as) : ∃ b ∈ bs, R a b := by
  induction h with
  | nil => cases ha
  | cons hab _ ih =>
    rcases List.mem_cons.1 ha with rfl | ha
    · exact ⟨_, .head _, hab⟩
    · obtain ⟨b, hb, hR⟩ := ih ha
      exact ⟨b, .tail _ hb, hR⟩

theorem exists_forall₂ {R : α → β → Prop} {as : List α} (h : ∀ a ∈ as, ∃ b, R a b) :
    ∃ bs, List.Forall₂ R as bs := by
  induction as with
  | nil => exact ⟨[], .nil⟩
  | cons a as ih =>
    obtain ⟨b, hb⟩ := h a (.head _)
    obtain ⟨bs, hbs⟩ := ih fun a' ha' => h a' (.tail _ ha')
    exact ⟨b :: bs, .cons hb hbs⟩

theorem mapM_eq_some_iff {f : α → Option β} {as : List α} {bs : List β} :
    as.mapM f = some bs ↔ List.Forall₂ (fun a b => f a = some b) as bs := by
  induction as generalizing bs with
  | nil => simp [List.mapM_nil, eq_comm]
  | cons a as ih =>
    rw [List.mapM_cons]
    constructor
    · intro h
      obtain ⟨b, hb, h⟩ := Option.bind_eq_some_iff.1 h
      obtain ⟨bs', hbs, h⟩ := Option.bind_eq_some_iff.1 h
      cases h
      exact .cons hb (ih.1 hbs)
    · intro h
      cases h with
      | cons hb hbs =>
        rw [hb, ih.2 hbs]
        rfl

theorem Ty.callable_iff : t.Callable ↔ ∃ sigs, t.CalledBy sigs := by
  constructor
  · intro h
    cases h with
    | function s => exact ⟨[s], .function s⟩
    | object hne h =>
      obtain ⟨sigs, hsigs⟩ := exists_forall₂ (R := Member.Calls) fun m hm =>
        (h m hm).elim fun c hc => ⟨c.sig, c, hc.1, hc.2, rfl⟩
      exact ⟨sigs, .object hne hsigs⟩
  · rintro ⟨sigs, h⟩
    cases h with
    | function s => exact .function s
    | object hne h =>
      refine .object hne fun m hm => ?_
      obtain ⟨s, -, c, hc, hlevel, -⟩ := exists_of_forall₂ h hm
      exact ⟨c, hc, hlevel⟩

theorem Member.callSignature?_eq_some {s : Signature} : m.callSignature? = some s ↔ m.Calls s := by
  cases m <;> simp [callSignature?, Calls]

theorem Ty.callSignatures?_eq_some {sigs : List Signature} :
    t.callSignatures? = some sigs ↔ t.CalledBy sigs := by
  constructor
  · intro h
    unfold callSignatures? at h
    split at h
    · cases h
      exact .function _
    · cases h
    · rename_i hne
      exact .object (hne ·) ((mapM_eq_some_iff.1 h).imp fun _ _ => Member.callSignature?_eq_some.1)
    · cases h
  · intro h
    cases h with
    | function s => rfl
    | object hne h =>
      rw [callSignatures?.eq_3 _ _ hne]
      exact mapM_eq_some_iff.2 (h.imp fun _ _ => Member.callSignature?_eq_some.2)

theorem Ty.callSignatures?_eq_none (h : ¬ t.Callable) : t.callSignatures? = none := by
  refine Option.eq_none_iff_forall_ne_some.2 fun sigs hsigs => h ?_
  exact Ty.callable_iff.2 ⟨sigs, Ty.callSignatures?_eq_some.1 hsigs⟩

theorem expandEach_eq_none {expand : α → Option (List α)} {as : List α} (h : ∀ a ∈ as, expand a = none) :
    expandEach expand as = none := by
  have hany : (as.any fun a => (expand a).isSome) = false := by
    rw [List.any_eq_false]
    intro a ha
    simp [h a ha]
  simp [expandEach, hany]

/-- Nothing directly in the node stands for functions: no object type for a function type, no property for
methods and no variable of a container for functions. -/
structure Node.Uncallable (n : Node) : Prop where
  call : ∀ {i c}, n = .ty (.object i [.call c]) → c.level ≠ .default
  property : ∀ {ms p t}, n.classMembers? = some ms → .property p ∈ ms → p.expr = none → p.tpe = some t →
    ¬ t.Callable
  var : ∀ {ds v t}, n.members? = some ds → .var v ∈ ds → v.expr = none → v.tpe = some t → ¬ t.Callable

theorem Node.Uncallable.toFunctionType? (h : (Node.ty t).Uncallable) : t.toFunctionType? = none := by
  unfold Ty.toFunctionType?
  split
  · exact if_neg (h.call rfl)
  · rfl

theorem Node.Uncallable.toMethods? (h : n.Uncallable) {ms : List Member}
    (hms : n.classMembers? = some ms) (hm : m ∈ ms) : m.toMethods? = none := by
  cases m with
  | property p =>
    rw [Member.toMethods?, Property.toMethods?]
    cases he : p.expr with
    | some e => rfl
    | none =>
      cases ht : p.tpe with
      | none => rfl
      | some t =>
        have hcall := Ty.callSignatures?_eq_none (h.property hms hm he ht)
        simp [hcall]
  | _ => rfl

theorem Node.Uncallable.toFunctions? (h : n.Uncallable) (hds : n.members? = some ds) (hd : d ∈ ds) :
    d.toFunctions? = none := by
  cases d with
  | var v =>
    rw [Decl.toFunctions?, VarDecl.toFunctions?]
    cases he : v.expr with
    | some e => rfl
    | none =>
      cases ht : v.tpe with
      | none => rfl
      | some t =>
        have hcall := Ty.callSignatures?_eq_none (h.var hds hd he ht)
        simp [hcall]
  | _ => rfl

/-! ## Classes and hoisted members -/

/-- The type may turn out to describe the static side of a class. -/
inductive Ty.MayDescribe (D : Realm) (s : Scope) : Ty → CtorShape → Prop
  | constructor {i : NodeId} {a : Bool} {sig : Signature} :
    MayDescribe D s (.constructor i a sig) ⟨sig, [], [], a⟩
  | object {i : NodeInfo} {ms : List Member} {shape : CtorShape}
    (h : CtorShape.ofMembers? ms = some shape) : MayDescribe D s (.object i ms) shape
  | ref {i : NodeInfo} {q : QIdent} {found : List Found} {ms : List Member} {shape : CtorShape}
    (hfound : D.MayAnswer (.lookup s .types q) found)
    (hplain : found.any (fun f => f.decl.isPlainInterface) = true)
    (hms : D.MayAnswer (.members s q) (some ms)) (h : CtorShape.ofMembers? ms = some shape) :
    MayDescribe D s (.ref i q []) shape

/-- The name under which a member of an exported variable is hoisted. -/
def Member.hoistedName? : Member → Option Ident
  | .call _ => some Ident.apply
  | .function m =>
    if m.kind ≠ .normal ∨ m.isStatic ∨ m.name = Ident.constructor then none else some m.name
  | .property p => if p.isStatic then none else some p.name
  | .ctor _ | .index _ | .mapped _ => none

/-- The type of a variable may turn out to have the members. -/
inductive Ty.MayHave (D : Realm) (s : Scope) : Ty → List Member → Prop
  | object (i : NodeInfo) (ms : List Member) : MayHave D s (.object i ms) ms
  | ref {i : NodeInfo} {q : QIdent} {ts : List Ty} {ms : List Member}
    (h : D.MayAnswer (.members s q) (some ms)) : MayHave D s (.ref i q ts) ms

/-- The members of the type of the variable, as they may turn out. -/
inductive VarDecl.MayHave (D : Realm) (s : Scope) (v : VarDecl) : List Member → Prop
  | known {t : Ty} {ms : List Member} (ht : v.tpe = some t) (h : t.MayHave D s ms) : MayHave D s v ms
  | unknown {i : NodeInfo} {q : QIdent} {ts : List Ty} (ht : v.tpe = some (.ref i q ts))
    (h : D.MayAnswer (.members s q) none) : MayHave D s v []
  | other (hobject : ∀ {i ms}, v.tpe ≠ some (.object i ms)) (href : ∀ {i q ts}, v.tpe ≠ some (.ref i q ts)) :
    MayHave D s v []

/-! ## Literals -/

/-- The members of a literal that gets no name, wherever it stands. -/
def Member.StayLiteral (ms : List Member) : Prop :=
  ms = [] ∨ Member.isDictionary ms = true ∨ Member.isTypeMapping ms = true

def Node.isTypeParam : Node → Bool
  | .tparam _ => true
  | _ => false

def Scope.inTypeParam (s : Scope) : Bool :=
  s.stack.any Node.isTypeParam

/-- Outside type parameters no literal is left that gets a name. -/
def Root.Named (root : Root) (f : File) : Prop :=
  ∀ s i ms, root.At f s (.ty (.object i ms)) → s.isExtractable = true → s.inTypeParam = false →
    Member.StayLiteral ms

/-! ## Files in normal form -/

/-- None of the idioms that the steps replace is left in the file. -/
structure Root.Normal (root : Root) (o : Options) (f : File) : Prop where
  union : ∀ {i ts}, f.Contains (.ty (.union i ts)) → SimplestUnion ts
  intersection : ∀ {i ts}, f.Contains (.ty (.intersect i ts)) → SimplestIntersection ts
  /-- The keys of a mapped type are not known. -/
  mapped : ∀ {s i m}, root.At f s (.ty (.object i [.mapped m])) → m.asName = none →
    ∀ keys, ¬ (root.searches f).realm.MayAnswer (.keys s m.source) (some keys)
  /-- No object type stands for a function type. -/
  call : ∀ {i c}, f.Contains (.ty (.object i [.call c])) → c.level ≠ .default
  /-- No property stands for methods. -/
  property : ∀ {n ms p t}, f.Contains n → n.classMembers? = some ms → .property p ∈ ms →
    p.expr = none → p.tpe = some t → ¬ t.Callable
  /-- No variable of a container stands for functions. -/
  var : ∀ {n ds v t}, f.Contains n → n.members? = some ds → .var v ∈ ds → v.expr = none →
    v.tpe = some t → ¬ t.Callable
  /-- A variable that describes a class cannot have one, for want of a name. -/
  cls : ∀ {s n ds v t shape}, root.At f s n → n.members? = some ds →
    .var v ∈ ds.map Decl.unwrapExport → v.expr = none → v.tpe = some t →
    t.MayDescribe (root.searches f).realm s shape →
    (∀ c ∈ shape.ctors, (c.tparams == shape.first.tparams) = true) →
    className? o.classBackupSuffix ds v = none
  /-- A class without constructors inherits none. -/
  ctors : ∀ {s c i q targs ms}, root.At f s (.decl (.cls c)) →
    c.members.any Member.isClassCtor = false → c.parent = some (.ref i q targs) →
    (root.searches f).realm.MayAnswer (.ctors s q targs) ms → ms = []
  /-- What could be hoisted next to an exported variable is declared there. -/
  hoisted : ∀ {s n ds v t ms m x}, root.At f s n → n.members? = some ds → .var v ∈ ds →
    v.name ∈ exportEqualsTargets ds → v.tpe = some t → t.MayHave (root.searches f).realm s ms →
    m ∈ ms → m.hoistedName? = some x → x ∈ ds.filterMap Decl.name?
  /-- No literal is left in a type parameter that gets a name. -/
  literal : ∀ {s i ms}, root.At f s (.ty (.object i ms)) → s.isExtractable = true →
    s.inTypeParam = true → Member.StayLiteral ms

/-! ## Steps that look nothing up -/

/-- Computations that do nothing but compute. -/
def computing : Logic Id where
  World := Unit
  le _ _ := True
  refl _ := trivial
  trans _ _ := trivial
  ends _ x P := P x.run ()
  pure h := h
  bind hx hf := hf _ () trivial hx

theorem File.idle_rests (f : File) :
    (Hooks.idle fun _ (_ : Node) => ()).Rests computing fun _ n => f.Contains n :=
  Hooks.idle_rests _ _ .child

theorem simplifyTypes_eq_keep {f : File} (h : ∀ {t}, f.Contains (.ty t) → simplified? t = none) :
    simplifyTypes f = .keep f := by
  have hrests : simplifyHooks.Rests computing fun _ n => f.Contains n :=
    { f.idle_rests with
      idle := {}
      leaveTy := h }
  exact hrests.walkFile f .file ()

theorem normalizeFunctions_eq_keep {f : File} (h : ∀ {n}, f.Contains n → n.Uncallable) :
    normalizeFunctions f = .keep f := by
  have hrests : callableHooks.Rests computing fun _ n => f.Contains n :=
    { f.idle_rests with
      idle := {}
      newMembers := fun _ hn hds => expandEach_eq_none fun _ hd => (h hn).toFunctions? hds hd
      newClassMembers := fun _ hn hms => expandEach_eq_none fun _ hm => (h hn).toMethods? hms hm
      leaveTy := fun ht => (h ht).toFunctionType? }
  exact hrests.walkFile f .file ()

theorem Substitution.rests_nil : substituteHooks.Rests computing fun sub _ => sub = [] := by
  have hidle : (Hooks.idle Substitution.under).Rests computing fun sub _ => sub = [] :=
    Hooks.idle_rests _ _ fun h _ => by subst h; rfl
  exact { hidle with idle := {}, leaveTy := fun h => by subst h; rfl }

theorem Substitution.inFile_eq (sub : Substitution) (f : File) :
    sub.inFile f = Id.run (walkFile substituteHooks sub f) := by
  unfold inFile
  split
  · rename_i hempty
    obtain rfl := List.isEmpty_iff.1 hempty
    exact (rests_nil.walkFile f rfl ()).symm
  · rfl

section
variable {root : Root} {o : Options} {f : File}

theorem Root.Normal.simplified? (h : root.Normal o f) (ht : f.Contains (.ty t)) :
    simplified? t = none := by
  cases t with
  | union i ts => exact simplified?_union (h.union ht)
  | intersect i ts => exact simplified?_intersect (h.intersection ht)
  | _ => rfl

theorem Root.Normal.uncallable (h : root.Normal o f) (hn : f.Contains n) : n.Uncallable where
  call hcall := h.call (hcall ▸ hn)
  property := h.property hn
  var := h.var hn

end

/-! ## Steps that look something up -/

section
variable {root : Root} {o : Options} {f : File}

theorem Root.Inside.within {s : Scope} {m : Node} (h : root.Inside f (s.enter n)) (hm : m ∈ n.children) :
    root.Inside f ((s.enter n).enter m) :=
  .child h rfl hm

theorem Root.idle_rests {m : Type → Type} [Monad m] [LawfulMonad m] (root : Root) (f : File) (L : Logic m) :
    (Hooks.idle Scope.enter).Rests L fun s n => root.Inside f (s.enter n) :=
  Hooks.idle_rests L _ Root.Inside.within

theorem Root.Normal.expandMapped (h : root.Normal o f) {w} {s : Scope}
    (hs : root.Inside f (s.enter (.ty t))) :
    (root.seeks f).ends w (expandMapped (s.enter (.ty t)) t) fun r _ =>
      r = none := by
  unfold Ambient.expandMapped
  split
  · rename_i i m
    split
    · exact .pure rfl
    · rename_i has
      have hQ : Query.In (.keys (s.enter (.ty (.object i [.mapped m]))) m.source)
          (root.searches f).realm :=
        .about ⟨not_false, hs.enters, hs.enters, _, _, rfl, List.mem_singleton_self _,
          m.source.self_mem_branches⟩ fun _ _ => trivial
      refine .bind (afresh_asking (Query.run_asking hQ)) fun keys _ _ hkeys => ?_
      cases keys with
      | none => exact .pure rfl
      | some ks => exact absurd hkeys (h.mapped ⟨hs, rfl⟩ (by simpa using has) ks)
  · exact .pure rfl

theorem Root.Inside.lookup_in {s : Scope} (hs : root.Inside f s) (picker : Picker) (q : QIdent) :
    Query.In (.lookup s picker q) (root.searches f).realm :=
  .about ⟨hs.enters, trivial, False.elim⟩ fun _ _ => trivial

theorem Root.Inside.members_in {s : Scope} (hs : root.Inside f s) (q : QIdent) :
    Query.In (.members s q) (root.searches f).realm :=
  .about ⟨not_false, hs.enters, trivial⟩ fun _ _ => trivial

theorem Root.Inside.ctors_in {s : Scope} (hs : root.Inside f s) (q : QIdent) (targs : List Ty) :
    Query.In (.ctors s q targs) (root.searches f).realm :=
  .about ⟨not_false, hs.enters, trivial⟩ fun _ _ => trivial

theorem ctorShape?_asking {s : Scope} (hs : root.Inside f s) (t : Ty) {w} :
    (root.seeks f).ends w (ctorShape? s t) fun r _ =>
      ∀ shape, r = some shape → t.MayDescribe (root.searches f).realm s shape := by
  unfold ctorShape?
  split
  · refine .pure fun shape hshape => ?_
    cases hshape
    exact .constructor
  · exact .pure fun shape hshape => .object hshape
  · rename_i i q
    refine .bind (Query.run_asking (hs.lookup_in .types q)) fun found _ _ hfound => ?_
    split
    · rename_i hplain
      refine .bind (Query.run_asking (hs.members_in q)) fun ms _ _ hms => .pure fun shape hshape => ?_
      obtain ⟨ms', rfl, hshape⟩ := Option.bind_eq_some_iff.1 hshape
      exact .ref hfound hplain hms hshape
    · exact .pure fun shape hshape => nomatch hshape
  · exact .pure fun shape hshape => nomatch hshape

theorem Root.Normal.extractVar (h : root.Normal o f) {s : Scope} (hs : root.At f s n)
    (hds : n.members? = some ds) (hv : .var v ∈ ds.map Decl.unwrapExport) {w} :
    (root.seeks f).ends w (extractVar o.classBackupSuffix s ds v) fun r _ =>
      r = none := by
  unfold Ambient.extractVar
  split
  · exact .pure rfl
  rename_i he
  have he : v.expr = none := by simpa using he
  split
  · exact .pure rfl
  rename_i t ht
  refine .bind (ctorShape?_asking hs.inside t) fun r _ _ hr => ?_
  cases r with
  | none => exact .pure rfl
  | some shape =>
    by_cases hsame : (shape.ctors.any fun c => !(c.tparams == shape.first.tparams)) = true
    · simp only [hsame, if_true]
      exact .pure rfl
    · simp only [hsame]
      have hctors : ∀ c ∈ shape.ctors, (c.tparams == shape.first.tparams) = true := by
        simpa using hsame
      rw [h.cls hs hds hv he ht (hr shape rfl) hctors]
      exact .pure rfl

theorem Root.Normal.extractClass (h : root.Normal o f) {s : Scope} (hs : root.At f s n)
    (hds : n.members? = some ds) (hd : d ∈ ds) {w} :
    (root.seeks f).ends w (extractClass o.classBackupSuffix s ds d) fun r _ =>
      r = none := by
  unfold Ambient.extractClass
  split
  · exact h.extractVar hs hds (List.mem_map_of_mem (f := Decl.unwrapExport) hd)
  · have hv := List.mem_map_of_mem (f := Decl.unwrapExport) hd
    refine .bind (h.extractVar hs hds hv) fun r _ _ hr => ?_
    subst hr
    exact .pure rfl
  · exact .pure rfl

theorem Root.Normal.extractEach (h : root.Normal o f) {s : Scope} {siblings : List Decl}
    (hs : root.At f s n) (hds : n.members? = some siblings) (hsub : ds ⊆ siblings) {w} :
    (root.seeks f).ends w (extractEach o.classBackupSuffix s siblings ds) fun e _ =>
      e = .keep ds := by
  induction ds generalizing w with
  | nil => exact .pure rfl
  | cons d ds ih =>
    have hd := h.extractClass (w := w) hs hds (hsub (.head _))
    refine .bind (afresh_asking hd) fun r _ _ hr => ?_
    refine .bind (ih fun d hd => hsub (.tail _ hd)) fun e _ _ he => ?_
    subst hr he
    exact .pure rfl

section
variable (hctors : ∀ {s : Scope} {c : ClassDecl} {i : NodeInfo} {q : QIdent} {targs : List Ty} {ms : List Member},
  root.At f s (.decl (.cls c)) → c.members.any Member.isClassCtor = false → c.parent = some (.ref i q targs) →
  (root.searches f).realm.MayAnswer (.ctors s q targs) ms → ms = [])
include hctors

theorem forwardTo_rests {s : Scope} {w} (hs : root.Inside f (s.enter (.decl d))) :
    (root.seeks f).ends w (forwardTo (s.enter (.decl d)) d) fun r _ => r = none := by
  unfold Ambient.forwardTo
  split
  · rename_i c
    split
    · exact .pure rfl
    rename_i hown
    split
    · rename_i i q targs hpar
      refine .bind (afresh_asking (Query.run_asking (hs.ctors_in q targs))) fun ms _ _ hms => ?_
      rw [hctors ⟨hs, rfl⟩ (by simpa using hown) hpar hms]
      exact .pure rfl
    · exact .pure rfl
  · exact .pure rfl

theorem forwardCtors_keeps {w} :
    (root.seeks f).ends w (forwardCtors (.ofRoot root) f) fun e _ => e = .keep f := by
  let L := root.seeks f
  have hrests : constructorHooks.Rests L fun s n => root.Inside f (s.enter n) :=
    { root.idle_rests f L with
      idle := {}
      leaveDecl := forwardTo_rests hctors }
  exact hrests.walkFile f .file w

end

end

/-! ## Places -/

/-- The node is in the file, and the path is the place of what is around it. -/
inductive File.Surrounds (f : File) (lib : Ident) : CodePath → Node → Prop
  | file : Surrounds f lib .noPath (.file f)
  | child {p : CodePath} {n m : Node} (hn : Surrounds f lib p n) (hm : m ∈ n.children) :
    Surrounds f lib (placeWithin lib p n) m

/-- Whatever has a place in the file has its own. -/
def File.InPlace (lib : Ident) (f : File) : Prop :=
  ∀ {p n q}, f.Surrounds lib p n → n.codePath? = some q → q = placeWithin lib p n

section
variable {root : Root} {o : Options} {f : File}

variable {s : Scope}

theorem File.InPlace.isSet_codePath (h : f.InPlace lib) (hs : root.Inside f s) : s.codePath.isSet = true := by
  have hfile : f.codePath.isSet = true := by
    rw [h .file rfl]
    rfl
  have hstack : .file f ∈ s.stack := by
    induction hs with
    | file => exact .head _
    | child _ _ _ ih => exact .tail _ ih
  have hsome : (s.stack.findSome? fun n => n.codePath?.filter CodePath.isSet).isSome := by
    rw [List.findSome?_isSome_iff]
    exact ⟨.file f, hstack, by simp [Node.codePath?, hfile]⟩
  obtain ⟨p, hp⟩ := Option.isSome_iff_exists.1 hsome
  obtain ⟨n, -, hn⟩ := List.exists_of_findSome?_eq_some hp
  rw [Scope.codePath, hp]
  exact (Option.filter_eq_some_iff.1 hn).2

theorem Member.HoistedAs.hoistedName? {x : Ident} (h : m.HoistedAs v p x d) : m.hoistedName? = some x := by
  cases h with
  | call => rfl
  | method _ hkind hstat hname => simp [Member.hoistedName?, hkind, hstat, hname]
  | property _ hstat => simp [Member.hoistedName?, hstat]

theorem hoistMembers_asking {D : Realm} (hp : p.isSet = true) {ms : List Member} {w} :
    (asking D).ends w (liftM (hoistMembers v p ms)) fun ds _ => hoistMembers v p ms = .ok ds := by
  obtain ⟨ds, hds⟩ := hoistMembers_isOk (v := v) hp ms
  rw [hds]
  exact .pure rfl

theorem membersOfVar_asking (hs : root.Inside f s) (v : VarDecl) {w} :
    (root.seeks f).ends w (membersOfVar s v) fun ms _ =>
      v.MayHave (root.searches f).realm s ms := by
  unfold membersOfVar
  split
  · rename_i i ms ht
    exact .pure (.known ht (.object i ms))
  · rename_i i q ts ht
    refine .bind (afresh_asking (Query.run_asking (hs.members_in q))) fun r _ _ hr => .pure ?_
    cases r with
    | none => exact .unknown ht hr
    | some ms => exact .known ht (.ref hr)
  · rename_i hobj href
    exact .pure (.other (hobj _ _) (href _ _ _))

theorem Root.Normal.hoistedBy (h : root.Normal o f) (hplace : f.InPlace lib) (hs : root.At f s n)
    (hds : n.members? = some ds) (hd : d ∈ ds) {w} :
    (root.seeks f).ends w
      (hoistedBy s (exportEqualsTargets ds) (ds.filterMap Decl.name?) d) fun r _ => r = [] := by
  refine Logic.imp (hoistedBy_hoists (membersOfVar_asking hs.inside _)
    (hoistMembers_asking (hplace.isSet_codePath hs.inside)) _ _ d) fun r _ hr => ?_
  cases hr with
  | other => rfl
  | target hv hms hhst =>
    refine List.eq_nil_iff_forall_not_mem.2 fun e he => ?_
    obtain ⟨m, hm, x, hmx, hfree⟩ := hhst.exists_of_mem he
    cases hms with
    | known ht hhave => exact hfree (h.hoisted hs hds hd hv ht hhave hm hmx.hoistedName?)
    | unknown | other => cases hm

theorem Root.Normal.hoistAll (h : root.Normal o f) (hplace : f.InPlace lib) {siblings : List Decl}
    (hs : root.At f s n) (hds : n.members? = some siblings) (hsub : ds ⊆ siblings) {w} :
    (root.seeks f).ends w
      (hoistAll s (exportEqualsTargets siblings) (siblings.filterMap Decl.name?) ds) fun e _ =>
        e = .keep ds := by
  induction ds generalizing w with
  | nil => exact .pure rfl
  | cons d ds ih =>
    refine .bind (h.hoistedBy hplace hs hds (hsub (.head _))) fun r _ _ hr => ?_
    refine .bind (ih fun d hd => hsub (.tail _ hd)) fun e _ _ he => ?_
    subst hr he
    exact .pure rfl

end

/-! ## Extraction -/

/-- Computations that extract nothing. -/
def extractingNothing : Logic Extract where
  World := Unit
  le _ _ := True
  refl _ := trivial
  trans _ _ := trivial
  ends _ x P := ∀ σ, ∃ a, (x.run []).run σ = .ok ((a, []), σ) ∧ P a ()
  pure h σ := ⟨_, rfl, h⟩
  bind hx hf σ := by
    obtain ⟨a, ha, hP⟩ := hx σ
    obtain ⟨b, hb, hQ⟩ := hf a () trivial hP σ
    refine ⟨b, ?_, hQ⟩
    rw [StateT.run_bind, StateT.run_bind, ha]
    exact hb

/-- One extraction keeps a type, or places a literal. -/
theorem extractInterface_ends {L : Logic Extract} {w : L.World} {stem : String} {s : Scope}
    {Q : Option Ty → Prop}
    (hkept : (∀ {i ms}, t = .object i ms → s.isExtractable = true → s.containers ≠ [] →
      Member.StayLiteral ms) → Q none)
    (hplaced : ∀ i ms, t = .object i ms → s.isExtractable = true → ¬ Member.StayLiteral ms →
      L.ends w (placeLiteral stem s i.comments ms (s.paramsOf t)) fun p _ => Q (some (p.reference s t))) :
    L.ends w (extractInterface stem s t) fun r _ => Q r := by
  refine .bind (P := fun r _ => Q (r.map (Placement.reference s t))) ?_ fun _ _ _ h => .pure h
  unfold placement?
  split
  · rename_i i ms
    split
    · rename_i hkeeps
      refine .pure (hkept fun heq hext hconts => ?_)
      cases heq
      simpa [hext, hconts, Member.StayLiteral, or_assoc] using hkeeps
    · rename_i hgets
      simp only [Bool.or_eq_true, Bool.not_eq_true', not_or, List.isEmpty_iff] at hgets
      refine .bind (hplaced i ms rfl (by simpa using hgets.1.2) ?_) fun _ _ _ h => .pure h
      rintro (h | h | h) <;> simp_all
  · rename_i hnot
    exact .pure (hkept fun heq => absurd heq (hnot _ _))

section
variable {root : Root} {o : Options} {f : File}

/-- Nowhere in the file is a literal left that gets a name. -/
def Root.NothingLeft (root : Root) (f : File) : Prop :=
  ∀ s i ms, root.At f s (.ty (.object i ms)) → s.isExtractable = true → Member.StayLiteral ms

theorem Root.NothingLeft.extractInterface (h : root.NothingLeft f) (stem : String) {w} {s : Scope}
    (hs : root.Inside f (s.enter (.ty t))) :
    extractingNothing.ends w (extractInterface stem (s.enter (.ty t)) t) fun r _ => r = none := by
  refine extractInterface_ends (fun _ => rfl) fun i ms heq hext hms => ?_
  cases heq
  exact absurd (h _ _ _ ⟨hs, rfl⟩ hext) hms

theorem Root.NothingLeft.extractInterfaces (h : root.NothingLeft f) (stem : String) (σ : Session) :
    (extractInterfaces stem (.ofRoot root) f).run σ = .ok (.keep f, σ) := by
  let L := extractingNothing
  have hrests : (interfaceHooks stem).Rests L fun s n => root.Inside f (s.enter n) :=
    { root.idle_rests f L with
      idle := {}
      newMembers := fun _ _ _ _ => ⟨none, rfl, rfl⟩
      leaveTy := h.extractInterface stem }
  obtain ⟨e, he, rfl⟩ := hrests.walkFile f .file () σ
  rw [Ambient.extractInterfaces, StateT.run_bind, he]
  rfl

end

/-! ## Repeated comments -/

/-- No function or method of the file repeats the comment of one before it. -/
structure File.Uncluttered (f : File) : Prop where
  functions : ∀ {n ds}, f.Contains n → n.members? = some ds → Unrepeated Decl.commented? ds
  methods : ∀ {n ms}, f.Contains n → n.classMembers? = some ms → Unrepeated Member.commented? ms

theorem keepFirstOverloadComment_rests {f : File} (h : f.Uncluttered) :
    keepFirstOverloadComment f = .keep f := by
  have hseen : ∀ {α : Type} {commented? : α → Option Commented} (as : List α), ∀ a ∈ as,
      ∀ c ∈ ([] : List Commented), commented? a = some c → c.2 = [] :=
    fun _ _ _ _ hc => absurd hc List.not_mem_nil
  have hrests : overloadHooks.Rests computing fun _ n => f.Contains n :=
    { f.idle_rests with
      idle := {}
      newMembers := fun {_ _ _ ds} _ hn hds =>
        congrArg Edited.toOption (dropRepeated_eq_keep (h.functions hn hds) (hseen ds))
      newClassMembers := fun {_ _ _ ms} _ hn hms =>
        congrArg Edited.toOption (dropRepeated_eq_keep (h.methods hn hms) (hseen ms)) }
  exact hrests.walkFile f .file ()

end Ambient
