import Ambient.Proofs.Twin.Equal
import Ambient.Scope.Bound
import Ambient.Scope.Question

/-!
# Scopes in twins

Scopes are twins when they are in twin libraries and their entered nodes are twins. They see the same
names, their identities correspond, and a search from one may be as long as a search from the other
(`Scope.Twin.searchBound_eq`).
-/

namespace Ambient

section
variable {L : Leeway}

/-! ## Nodes -/

mutual

theorem Ty.links_twin (t : Ty) {u : Ty} (h : t.Twin L u) : t.links = u.links := by
  cases t with
  | keyOf i t =>
    have ih := @Ty.links_twin t
    cases h with | keyOf _ ht => rw [Ty.links, Ty.links, ih ht]
  | union i ts | intersect i ts =>
    have ih := @Ty.linksList_twin ts
    cases h
    next hts => rw [Ty.links, Ty.links, ih hts]
  | _ => cases h; simp [Ty.links]
termination_by structural t

theorem Ty.linksList_twin (ts : List Ty) {us : List Ty} (h : Ty.Twins L ts us) :
    Ty.linksList ts = Ty.linksList us := by
  cases ts with
  | nil => cases h; rfl
  | cons t ts =>
    have ih₁ := @Ty.links_twin t
    have ih₂ := @Ty.linksList_twin ts
    cases h with | cons ht hts => rw [Ty.linksList, Ty.linksList, ih₁ ht, ih₂ hts]
termination_by structural ts

end

mutual

theorem Decl.weight_twin (d : Decl) {e : Decl} (h : d.Twin L e) : d.weight = e.weight := by
  cases d with
  | space g ms | module g ms | augmentation g ms | global g ms =>
    have ih := @Decl.weightList_twin ms
    cases h
    next hms => rw [Decl.weight, Decl.weight, ih hms]
  | cls c => cases h with | cls hc => rw [Decl.weight, Decl.weight, hc.implements.length_eq]
  | iface i => cases h with | iface hi => rw [Decl.weight, Decl.weight, hi.inheritance.length_eq]
  | typeAlias a =>
    cases h with | typeAlias ha => rw [Decl.weight, Decl.weight, Ty.links_twin _ ha.target]
  | imports i => cases h with | imports hi => rw [Decl.weight, Decl.weight, hi.imported]
  | exports g x =>
    have ih := @Exportee.weight_twin x
    cases h with | exports _ hx => rw [Decl.weight, Decl.weight, ih hx]
  | _ => cases h; rfl
termination_by structural d

theorem Exportee.weight_twin (x : Exportee) {y : Exportee} (h : x.Twin L y) : x.weight = y.weight := by
  cases x with
  | inline d =>
    have ih := @Decl.weight_twin d
    cases h with | inline hd => rw [Exportee.weight, Exportee.weight, ih hd]
  | _ => cases h; rfl
termination_by structural x

theorem Decl.weightList_twin (ds : List Decl) {es : List Decl} (h : Decl.Twins L ds es) :
    Decl.weightList ds = Decl.weightList es := by
  cases ds with
  | nil => cases h; rfl
  | cons d ds =>
    have ih₁ := @Decl.weight_twin d
    have ih₂ := @Decl.weightList_twin ds
    cases h with | cons hd hds => rw [Decl.weightList, Decl.weightList, ih₁ hd, ih₂ hds]
termination_by structural ds

end

namespace Node.Twin

variable {x y : Node}

theorem id (hL : L.Fair) (h : x.Twin L y) : L.id x.id y.id := by
  cases h with
  | file h => exact h.info.id
  | decl h => exact h.id
  | member h => exact (h.info hL).id
  | ty h => exact h.id hL
  | sig h | param h | tparam h => exact h.info.id

theorem codePath?_eq (h : x.Twin L y) : x.codePath? = y.codePath? := by
  cases h with
  | file h => exact congrArg some h.codePath
  | decl h => exact h.codePath?_eq
  | _ => rfl

theorem members? (h : x.Twin L y) : Option.Rel (Decl.Twins L) x.members? y.members? := by
  cases h with
  | file h => exact .some h.members
  | decl h => exact h.members?
  | _ => exact .none

theorem isContainer_eq (h : x.Twin L y) : x.isContainer = y.isContainer :=
  h.members?.isSome_eq

theorem tparams (h : x.Twin L y) : TypeParam.Twins L x.tparams y.tparams := by
  cases h with
  | decl h | sig h => exact h.tparams
  | member h =>
    cases h with
    | call _ hs => exact hs.tparams
    | ctor _ hs => exact hs.tparams
    | function _ hs => exact hs.tparams
    | _ => exact .nil
  | ty h =>
    cases h with
    | function hs => exact hs.tparams
    | constructor _ hs => exact hs.tparams
    | _ => exact .nil
  | _ => exact .nil

theorem typeKey?_eq (h : x.Twin L y) : x.typeKey? = y.typeKey? := by
  cases h with
  | member h => cases h <;> rfl
  | _ => rfl

theorem weight_eq (h : x.Twin L y) : x.weight = y.weight := by
  cases h with
  | file h => exact Decl.weightList_twin _ h.members
  | decl h => exact Decl.weight_twin _ h
  | _ => rfl

end Node.Twin

/-! ## Libraries and scopes -/

/-- The dependencies have the same name and twin files. -/
structure Dependency.Twin (L : Leeway) (d e : Dependency) : Prop where
  name : d.name = e.name
  file : d.file.Twin L e.file
  module : d.module.Twin L e.module

/-- The libraries have the same name and twin dependencies. -/
structure Root.Twin (L : Leeway) (r s : Root) : Prop where
  lib : r.lib = s.lib
  pedantic : r.pedantic = s.pedantic
  deps : List.Forall₂ (Dependency.Twin L) r.deps.libs s.deps.libs

/-- The entered nodes are twins, and so are the type parameters in force. -/
structure Frame.Twin (L : Leeway) (f g : Frame) : Prop where
  node : f.node.Twin L g.node
  tparams : List.Forall₂ (Both Eq (TypeParam.Twin L)) f.tparams g.tparams
  tkeys : f.tkeys = g.tkeys

/-- The scopes are in twin libraries, inside twin nodes. -/
structure Scope.Twin (L : Leeway) (s t : Scope) : Prop where
  root : s.root.Twin L t.root
  frames : List.Forall₂ (Frame.Twin L) s.frames t.frames

/-- The identities of scopes correspond. -/
structure ScopeKey.Twin (L : Leeway) (a b : ScopeKey) : Prop where
  lib : a.1 = b.1
  nodes : List.Forall₂ L.id a.2 b.2

theorem Leeway.Fair.ids_iff (hL : L.Fair) {is js ks ls : List NodeId} (h : List.Forall₂ L.id is js)
    (h' : List.Forall₂ L.id ks ls) : is = ks ↔ js = ls := by
  induction h generalizing ks ls with
  | nil => cases h' <;> simp
  | cons hi _ ih =>
    cases h' with
    | nil => simp
    | cons hk hks => rw [List.cons.injEq, List.cons.injEq, hL.id_iff hi hk, ih hks]

theorem ScopeKey.Twin.eq_iff (hL : L.Fair) {a b c d : ScopeKey} (h : a.Twin L b) (h' : c.Twin L d) :
    a = c ↔ b = d := by
  rw [Prod.ext_iff, Prod.ext_iff, h.lib, h'.lib, hL.ids_iff h.nodes h'.nodes]

theorem ScopeKey.Twin.beq_eq (hL : L.Fair) {a b c d : ScopeKey} (h : a.Twin L b) (h' : c.Twin L d) :
    (a == c) = (b == d) := by
  rw [Bool.eq_iff_iff, beq_iff_eq, beq_iff_eq, h.eq_iff hL h']

theorem Root.Twin.find? {r s : Root} (h : r.Twin L s) (x : Ident) :
    Option.Rel (Dependency.Twin L) (r.deps.find? x) (s.deps.find? x) :=
  h.deps.find? fun hd => by rw [hd.name]

theorem total_eq_of_twin {α β : Type} {R : α → β → Prop} {f : α → Nat} {g : β → Nat} {as : List α}
    {bs : List β} (h : List.Forall₂ R as bs) (hfg : ∀ {a b}, R a b → f a = g b) :
    total f as = total g bs := by
  induction h with
  | nil => rfl
  | cons hab _ ih => rw [total, total, hfg hab, ih]

namespace Scope.Twin

variable {s t : Scope}

theorem ofRoot {r r' : Root} (h : r.Twin L r') : (Scope.ofRoot r).Twin L (Scope.ofRoot r') :=
  ⟨h, .nil⟩

theorem key (hL : L.Fair) (h : s.Twin L t) : s.key.Twin L t.key :=
  ⟨h.root.lib, List.rel_map (fun _ _ hf => hf.node.id hL) h.frames⟩

theorem tparams (h : s.Twin L t) : List.Forall₂ (Both Eq (TypeParam.Twin L)) s.tparams t.tparams := by
  obtain ⟨r, fs⟩ := s
  obtain ⟨r', gs⟩ := t
  cases h.frames with
  | nil => exact .nil
  | cons hf _ => exact hf.tparams

theorem tkeys_eq (h : s.Twin L t) : s.tkeys = t.tkeys := by
  obtain ⟨r, fs⟩ := s
  obtain ⟨r', gs⟩ := t
  cases h.frames with
  | nil => rfl
  | cons hf _ => exact hf.tkeys

theorem enter (h : s.Twin L t) {x y : Node} (hxy : x.Twin L y) : (s.enter x).Twin L (t.enter y) := by
  refine ⟨h.root, .cons ⟨hxy, ?_, ?_⟩ h.frames⟩
  · exact hxy.tparams.foldl (fun hps hp => .cons ⟨hp.name_eq, hp⟩ hps) h.tparams
  · change x.typeKey?.toList ++ s.tkeys = y.typeKey?.toList ++ t.tkeys
    rw [hxy.typeKey?_eq, h.tkeys_eq]

theorem current? (h : s.Twin L t) : Option.Rel (Node.Twin L) s.current? t.current? := by
  obtain ⟨r, fs⟩ := s
  obtain ⟨r', gs⟩ := t
  cases h.frames with
  | nil => exact .none
  | cons hf _ => exact .some hf.node

theorem outwards (h : s.Twin L t) : List.Forall₂ (Scope.Twin L) s.outwards t.outwards := by
  have hfrom : ∀ {fs gs : List Frame}, List.Forall₂ (Frame.Twin L) fs gs →
      List.Forall₂ (Scope.Twin L) (Scope.outwardsFrom s.root fs) (Scope.outwardsFrom t.root gs) := by
    intro fs gs hfs
    induction hfs with
    | nil => exact .cons ⟨h.root, .nil⟩ .nil
    | cons hf hfs ih => exact .cons ⟨h.root, .cons hf hfs⟩ ih
  exact hfrom h.frames

theorem stack (h : s.Twin L t) : List.Forall₂ (Node.Twin L) s.stack t.stack :=
  List.rel_map (fun _ _ hf => hf.node) h.frames

theorem isAbstract_eq (h : s.Twin L t) (q : QIdent) : s.isAbstract q = t.isAbstract q := by
  match q with
  | [] | _ :: _ :: _ => rfl
  | [x] =>
    change ((s.tparams.lookup x).isSome || s.tkeys.contains x) =
      ((t.tparams.lookup x).isSome || t.tkeys.contains x)
    rw [(lookup_twin (fun hk hl => by rw [hk, hl]) h.tparams rfl).isSome_eq, h.tkeys_eq]

theorem isContainer_eq (h : s.Twin L t) : s.isContainer = t.isContainer :=
  h.current?.any_eq Node.Twin.isContainer_eq

theorem members (h : s.Twin L t) : Decl.Twins L s.members t.members :=
  (h.current?.bind Node.Twin.members?).getD .nil

theorem isFile_eq (h : s.Twin L t) : s.isFile = t.isFile := by
  rw [isFile, isFile]
  generalize s.current? = x, t.current? = y, h.current? = hxy
  cases hxy with
  | none => rfl
  | some hxy => cases hxy <;> rfl

theorem fileScope? (h : s.Twin L t) : Option.Rel (Scope.Twin L) s.fileScope? t.fileScope? :=
  h.outwards.find? isFile_eq

theorem codePath_eq (h : s.Twin L t) : s.codePath = t.codePath := by
  have hfind : ∀ {xs ys : List Node}, List.Forall₂ (Node.Twin L) xs ys →
      (xs.findSome? fun n => n.codePath?.filter CodePath.isSet) =
        ys.findSome? fun n => n.codePath?.filter CodePath.isSet := by
    intro xs ys hxs
    induction hxs with
    | nil => rfl
    | cons hx _ ih => rw [List.findSome?_cons, List.findSome?_cons, hx.codePath?_eq, ih]
  rw [codePath, codePath, hfind h.stack]

theorem dependencyRoot? (h : s.Twin L t) (x : Ident) :
    Option.Rel (Scope.Twin L) (s.dependencyRoot? x) (t.dependencyRoot? x) :=
  (h.root.find? x).map fun hd => .ofRoot ⟨hd.name, rfl, h.root.deps⟩

theorem dependencyScope? (h : s.Twin L t) (x : Ident) :
    Option.Rel (Scope.Twin L) (s.dependencyScope? x) (t.dependencyScope? x) :=
  (h.root.find? x).bind fun hd => (h.dependencyRoot? x).bind fun hr => .some (hr.enter (.file hd.file))

theorem dependencyScopes (h : s.Twin L t) :
    List.Forall₂ (Scope.Twin L) s.dependencyScopes t.dependencyScopes := by
  have hnames : s.root.deps.names = t.root.deps.names := h.root.deps.map_eq Dependency.Twin.name
  rw [Scope.dependencyScopes, Scope.dependencyScopes, hnames]
  exact List.rel_filterMap (R := Eq) (fun x _ hx => hx ▸ h.dependencyScope? x) (List.forall₂_refl _)

theorem isSettled_eq (h : s.Twin L t) (q : QIdent) : s.isSettled q = t.isSettled q := by
  rw [isSettled, isSettled, h.isAbstract_eq]

theorem reach_eq (h : s.Twin L t) : s.reach = t.reach := by
  have hfrs : total (fun f => f.node.weight + 1) s.frames =
      total (fun f => f.node.weight + 1) t.frames :=
    total_eq_of_twin h.frames fun hf => by rw [hf.node.weight_eq]
  have hdeps : total (fun d => d.module.weight + Decl.weightList d.file.members + 2) s.root.deps.libs =
      total (fun d => d.module.weight + Decl.weightList d.file.members + 2) t.root.deps.libs :=
    total_eq_of_twin h.root.deps fun hd => by
      rw [Decl.weight_twin _ hd.module, Decl.weightList_twin _ hd.file.members]
  rw [reach, reach, hfrs, hdeps]

theorem searchBound_eq (h : s.Twin L t) (names : Nat) : s.searchBound names = t.searchBound names := by
  rw [searchBound, searchBound, h.reach_eq]

end Scope.Twin

end

end Ambient
