import Ambient.Pass.Callables
import Ambient.Pass.Place
import Ambient.Pass.Simplify
import Ambient.Proofs.Overloads
import Ambient.Proofs.Twin.Equal
import Ambient.Proofs.Twin.Search

/-!
# Twins under the steps that look nothing up

Each of these steps takes twins to twins: places (`setCodePaths_twin`), simplest forms
(`simplifyTypes_twin`), callable values (`normalizeFunctions_twin`), replaced types
(`Substitution.Twin.inFile`) and repeated comments (`keepFirstOverloadComment_twin`). The last one is the
only step that reads what authors wrote. Where texts do not correspond it may change one twin and keep
the other, and what it then does to them differs in comments only.
-/

namespace Ambient

variable {d e : Decl} {f g : File} {ts us : List Ty} {m n : Member} {t u : Ty}

variable {os ps : List (Comments × List Member)} {xs ys : List (Nat × Member)} {strict : Prop}
  {a b : Substitution}

section
variable {L : Leeway}

/-! ## Places -/

theorem placeWithin_eq (lib : Ident) (p : CodePath) {x y : Node} (h : x.Twin L y) :
    placeWithin lib p x = placeWithin lib p y := by
  cases h with
  | decl hd => rw [placeWithin, placeWithin, hd.name?_eq]
  | _ => rfl

theorem setCodePaths_twin (strict : Prop) (lib : Ident) (h : f.Twin L g) :
    (setCodePaths lib f).Twin strict (File.Twin L) (setCodePaths lib g) := by
  have hk : Hooks.Twin .ofId L strict Eq (placeHooks lib) (placeHooks lib) :=
    { idle := {}
      idle' := {}
      within := fun {c _ _ _} hc hxy => hc ▸ placeWithin_eq lib c hxy
      enterFile := fun {c _ _ _} hc hfg => hc ▸ congrArg (fun q => newPlace? c (some q)) hfg.codePath
      enterDecl := fun {c _ _ _} hc hxy => hc ▸ congrArg (newPlace? c) hxy.codePath?_eq
      newMembers := fun _ _ _ hxs => .of_rel hxs .none
      newClassMembers := fun _ _ _ hxs => .of_rel hxs .none
      leaveDecl := fun _ hx => .of_rel hx .none
      leaveTy := fun _ ht => .of_rel ht .none }
  exact walkFile_twin hk rfl h

/-! ## Unions and intersections -/

theorem distinct_twin {α β : Type} [BEq α] [BEq β] {R : α → β → Prop}
    (hR : ∀ {a b c d}, R a b → R c d → (a == c) = (b == d)) {as : List α} {bs : List β}
    (h : List.Forall₂ R as bs) : List.Forall₂ R (distinct as) (distinct bs) := by
  induction h with
  | nil => exact .nil
  | cons hab _ ih => exact .cons hab (ih.filter fun hcd => congrArg (!·) (hR hab hcd))

theorem Leeway.Fair.reference (hL : L.Fair) (x : QIdent) :
    (Ty.reference x []).Twin L (Ty.reference x []) :=
  .ref hL.fresh .nil

mutual

theorem Ty.unionLeaves_twin (t : Ty) {u : Ty} (h : t.Twin L u) :
    Ty.Twins L t.unionLeaves u.unionLeaves := by
  cases t with
  | union i ts =>
    have ih := @Ty.unionLeavesList_twin ts
    cases h with | union _ hts =>
      exact ih hts
  | _ =>
    have htu := h
    cases h
    exact .cons htu .nil
termination_by structural t

theorem Ty.unionLeavesList_twin (ts : List Ty) {us : List Ty} (h : Ty.Twins L ts us) :
    Ty.Twins L (Ty.unionLeavesList ts) (Ty.unionLeavesList us) := by
  cases ts with
  | nil => cases h; exact .nil
  | cons t ts =>
    have ih₁ := @Ty.unionLeaves_twin t
    have ih₂ := @Ty.unionLeavesList_twin ts
    cases h with | cons ht hts =>
      exact (ih₁ ht).append (ih₂ hts)
termination_by structural ts

end

theorem simplifyUnion_twin (hL : L.Fair) (h : Ty.Twins L ts us) :
    (simplifyUnion ts).Twin L (simplifyUnion us) := by
  rw [simplifyUnion, simplifyUnion]
  have hlvs := distinct_twin Ty.beq_twin (Ty.unionLeavesList_twin ts h)
  generalize distinct (Ty.unionLeavesList ts) = xs at hlvs ⊢
  generalize distinct (Ty.unionLeavesList us) = ys at hlvs ⊢
  match hlvs with
  | .nil => exact hL.reference _
  | .cons ht .nil => exact ht
  | .cons ht (.cons hu hrest) => exact .union hL.id_zero (.cons ht (.cons hu hrest))

theorem makeOptional_twin (hL : L.Fair) (h : t.Twin L u) : (makeOptional t).Twin L (makeOptional u) :=
  simplifyUnion_twin hL (.cons h (.cons (hL.reference _) .nil))

theorem extractOptional?_twin (hL : L.Fair) (h : t.Twin L u) :
    Option.Rel (Ty.Twin L) (extractOptional? t) (extractOptional? u) := by
  have hundef : ∀ {v w : Ty}, v.Twin L w → v.isUndefined = w.isUndefined := Ty.Twin.isNamed_eq _
  have htu := h
  have hself := hundef h
  cases h with
  | union _ hts =>
    simp only [extractOptional?, hts.any_eq hundef]
    split
    · exact .some (simplifyUnion_twin hL (hts.filter fun h => congrArg (!·) (hundef h)))
    · exact .none
  | _ =>
    simp only [extractOptional?, hself]
    split
    · exact .some htu
    · exact .none

mutual

theorem Ty.intersectLeaves_twin (t : Ty) {u : Ty} (h : t.Twin L u) :
    Ty.Twins L t.intersectLeaves u.intersectLeaves := by
  cases t with
  | intersect i ts =>
    have ih := @Ty.intersectLeavesList_twin ts
    cases h with | intersect _ hts =>
      exact ih hts
  | _ =>
    have htu := h
    cases h
    exact .cons htu .nil
termination_by structural t

theorem Ty.intersectLeavesList_twin (ts : List Ty) {us : List Ty}
    (h : Ty.Twins L ts us) :
    Ty.Twins L (Ty.intersectLeavesList ts) (Ty.intersectLeavesList us) := by
  cases ts with
  | nil => cases h; exact .nil
  | cons t ts =>
    have ih₁ := @Ty.intersectLeaves_twin t
    have ih₂ := @Ty.intersectLeavesList_twin ts
    cases h with | cons ht hts =>
      exact (ih₁ ht).append (ih₂ hts)
termination_by structural ts

end

theorem Ty.Twin.plainObject? (h : t.Twin L u) :
    Option.Rel (Both L.hints (Member.Twins L)) t.plainObject? u.plainObject? := by
  cases h with
  | object hi hms =>
    simp only [Ty.plainObject?, Member.isTypeMapping_eq hms]
    split
    · exact .none
    · exact .some ⟨hi.hints, hms⟩
  | _ => exact .none

theorem Ty.Twin.isPlainObject_eq (h : t.Twin L u) : t.isPlainObject = u.isPlainObject :=
  h.plainObject?.isSome_eq

/-- The members merged so far come from the same objects. -/
abbrev MergedTwin (L : Leeway) : List (Nat × Member) → List (Nat × Member) → Prop :=
  List.Forall₂ (Both Eq (Member.Twin L))

theorem overriddenBy_eq (origin : Nat) (x : Ident) {p q : Nat × Member}
    (h : Both Eq (Member.Twin L) p q) : overriddenBy origin x p = overriddenBy origin x q := by
  rw [overriddenBy, overriddenBy, h.fst, h.snd.name?_eq]

theorem mergeMember_twin (origin : Nat) (h : MergedTwin L xs ys) (hm : m.Twin L n) :
    MergedTwin L (mergeMember origin xs m) (mergeMember origin ys n) := by
  have hlast : MergedTwin L (xs ++ [(origin, m)]) (ys ++ [(origin, n)]) :=
    h.append (.cons ⟨rfl, hm⟩ .nil)
  rw [mergeMember, mergeMember, hm.name?_eq]
  cases n.name? with
  | none => exact hlast
  | some x =>
    have hidx : xs.findIdx? (overriddenBy origin x) = ys.findIdx? (overriddenBy origin x) := by
      clear hlast
      induction h with
      | nil => rfl
      | cons hp _ ih => rw [List.findIdx?_cons, List.findIdx?_cons, overriddenBy_eq origin x hp, ih]
    simp only [hidx]
    cases ys.findIdx? (overriddenBy origin x) with
    | none => exact hlast
    | some i =>
      refine List.Forall₂.append (List.forall₂_take i h) (.cons ⟨rfl, hm⟩ ?_)
      exact (List.forall₂_drop (i + 1) h).filter fun hp => congrArg (!·) (overriddenBy_eq origin x hp)

theorem mergeObjects_twin (origin : Nat) (h : MergedTwin L xs ys)
    (ho : List.Forall₂ (Both L.hints (Member.Twins L)) os ps) :
    MergedTwin L (mergeObjects origin xs os) (mergeObjects origin ys ps) := by
  induction ho generalizing origin xs ys with
  | nil => exact h
  | cons hop _ ih =>
    exact ih (origin + 1) (hop.snd.foldl (S := MergedTwin L)
      (fun hs hm => mergeMember_twin origin hs hm) h)

theorem mergedObject_twin (hL : L.Fair)
    (h : List.Forall₂ (Both L.hints (Member.Twins L)) os ps) :
    (mergedObject os).Twin L (mergedObject ps) := by
  have hhints : L.hints (os.map (·.1)).flatten (ps.map (·.1)).flatten := by
    induction h with
    | nil => exact hL.hints_nil
    | cons hop _ ih => exact hL.hints_append hop.fst ih
  exact .object ⟨hL.id_zero, hhints⟩ (List.rel_map (fun _ _ hp => hp.snd) (mergeObjects_twin 0 .nil h))

theorem replaceObjects_twin (ht : t.Twin L u) (h : Ty.Twins L ts us) :
    Ty.Twins L (replaceObjects t ts) (replaceObjects u us) := by
  induction h with
  | nil => exact .nil
  | cons hab hrest ih =>
    rw [replaceObjects, replaceObjects, hab.isPlainObject_eq]
    split
    · exact .cons ht (hrest.filter fun h => congrArg (!·) h.isPlainObject_eq)
    · exact .cons hab ih

theorem mergePlainObjects_twin (hL : L.Fair) (h : Ty.Twins L ts us) :
    Ty.Twins L (mergePlainObjects ts) (mergePlainObjects us) := by
  have ho := List.rel_filterMap (fun _ _ ht => Ty.Twin.plainObject? ht) h
  rw [mergePlainObjects, mergePlainObjects]
  generalize ts.filterMap Ty.plainObject? = os at ho ⊢
  generalize us.filterMap Ty.plainObject? = ps at ho ⊢
  match ho with
  | .nil | .cons _ .nil => exact h
  | .cons h₁ (.cons h₂ ho) => exact replaceObjects_twin (mergedObject_twin hL (.cons h₁ (.cons h₂ ho))) h

theorem simplifyIntersection_twin (hL : L.Fair) (h : Ty.Twins L ts us) :
    (simplifyIntersection ts).Twin L (simplifyIntersection us) := by
  rw [simplifyIntersection, simplifyIntersection]
  have hparts := mergePlainObjects_twin hL (distinct_twin Ty.beq_twin (Ty.intersectLeavesList_twin ts h))
  generalize mergePlainObjects (distinct (Ty.intersectLeavesList ts)) = xs at hparts ⊢
  generalize mergePlainObjects (distinct (Ty.intersectLeavesList us)) = ys at hparts ⊢
  match hparts with
  | .nil => exact hL.reference _
  | .cons ht .nil => exact ht
  | .cons ht (.cons hu hrest) => exact .intersect hL.id_zero (.cons ht (.cons hu hrest))

theorem simplified?_twin (hL : L.Fair) (h : t.Twin L u) :
    Option.Rel (Ty.Twin L) (simplified? t) (simplified? u) := by
  have hkeep : ∀ {v w : Ty}, v.Twin L w →
      Option.Rel (Ty.Twin L) (if v == t then none else some v) (if w == u then none else some w) := by
    intro v w hvw
    rw [Ty.beq_twin hvw h]
    split
    · exact .none
    · exact .some hvw
  cases h with
  | union _ hts => exact hkeep (simplifyUnion_twin hL hts)
  | intersect _ hts => exact hkeep (simplifyIntersection_twin hL hts)
  | _ => exact .none

theorem simplifyTypes_twin (hL : L.Fair) (strict : Prop) (h : f.Twin L g) :
    (simplifyTypes f).Twin strict (File.Twin L) (simplifyTypes g) := by
  have hk : Hooks.Twin .ofId L strict (fun _ _ => True) simplifyHooks simplifyHooks :=
    leaveTy_twin .ofId (fun _ _ => trivial) fun _ ht => simplified?_twin hL ht
  exact walkFile_twin hk trivial h

/-! ## Taking comments off -/

theorem NodeInfo.Twin.strip (hL : L.Fair) {i j : NodeInfo} (h : i.Twin L j) : i.strip.Twin L j.strip :=
  ⟨h.id, hL.markersOnly h.comments⟩

theorem Member.Twin.strip (hL : L.Fair) (h : m.Twin L n) : m.strip.Twin L n.strip := by
  cases h with
  | call hi hs => exact .call (hi.strip hL) hs
  | ctor hi hs => exact .ctor (hi.strip hL) hs
  | function hi hs => exact .function (hi.strip hL) hs
  | property hi ht he => exact .property (hi.strip hL) ht he
  | dict hi hk hv => exact .dict hi hk hv
  | single hi hv => exact .single hi hv
  | mapped hi hs ha ht => exact .mapped hi hs ha ht

theorem Decl.Twin.strip (hL : L.Fair) (h : d.Twin L e) : d.strip.Twin L e.strip := by
  cases h with
  | space hh hms => exact .space { hh with info := hh.info.strip hL } hms
  | module hh hms => exact .module { hh with info := hh.info.strip hL } hms
  | augmentation hh hms => exact .augmentation { hh with info := hh.info.strip hL } hms
  | global hh hms => exact .global { hh with info := hh.info.strip hL } hms
  | cls hc => exact .cls { hc with info := hc.info.strip hL }
  | iface hi => exact .iface { hi with info := hi.info.strip hL }
  | enum he => exact .enum { he with info := he.info.strip hL }
  | var hv => exact .var { hv with info := hv.info.strip hL }
  | function hf => exact .function { hf with info := hf.info.strip hL }
  | typeAlias ha => exact .typeAlias { ha with info := ha.info.strip hL }
  | imports hi => exact .imports hi
  | exports hh he => exact .exports { hh with info := hh.info.strip hL } he
  | exportAs he => exact .exportAs he

theorem keepFirstOnly_twin {α : Type} {R : α → α → Prop} {strip : α → α}
    (hstrip : ∀ {a b}, R a b → R (strip a) (strip b)) {as bs : List α} (h : List.Forall₂ R as bs) :
    List.Forall₂ R (keepFirstOnly strip as) (keepFirstOnly strip bs) := by
  cases h with
  | nil => exact .nil
  | cons hab hrest => exact .cons hab (List.rel_map (fun _ _ hab => hstrip hab) hrest)

/-! ## Callable values -/

theorem Member.Twin.callSignature? (h : m.Twin L n) :
    Option.Rel (Signature.Twin L) m.callSignature? n.callSignature? := by
  cases h with
  | call _ hs =>
    simp only [Member.callSignature?]
    split
    · exact .some hs
    · exact .none
  | _ => exact .none

theorem Ty.Twin.callSignatures? (h : t.Twin L u) :
    Option.Rel (List.Forall₂ (Signature.Twin L)) t.callSignatures? u.callSignatures? := by
  cases h with
  | function hs => exact .some (.cons hs .nil)
  | object _ hms =>
    cases hms with
    | nil => exact .none
    | cons hm hms => exact Pairing.ofOption.mapM (.cons hm hms) Member.Twin.callSignature?
  | _ => exact .none

theorem Member.Twin.toMethods? (hL : L.Fair) (h : m.Twin L n) :
    Option.Rel (Member.Twins L) m.toMethods? n.toMethods? := by
  cases h with
  | property hi ht he =>
    simp only [Member.toMethods?, Property.toMethods?, he.isSome_eq]
    split
    · exact .none
    refine ht.bind fun {t u} ht => ht.callSignatures?.bind fun hsigs => .some ?_
    refine keepFirstOnly_twin (Member.Twin.strip hL) (List.rel_map (fun _ _ hs => ?_) hsigs)
    refine .function (hL.new ?_) hs
    cases ht with
    | object => exact hL.withMarker _ hi.comments
    | _ => exact hi.comments
  | _ => exact .none

theorem Decl.Twin.toFunctions? (hL : L.Fair) (h : d.Twin L e) :
    Option.Rel (Decl.Twins L) d.toFunctions? e.toFunctions? := by
  cases h with
  | var hv =>
    simp only [Decl.toFunctions?, VarDecl.toFunctions?, hv.expr.isSome_eq]
    split
    · exact .none
    refine hv.tpe.bind fun ht => ht.callSignatures?.bind fun hsigs => .some ?_
    refine keepFirstOnly_twin (Decl.Twin.strip hL) (List.rel_map (fun _ _ hs => ?_) hsigs)
    exact .function ⟨hL.new hv.info.comments, hv.declared, hv.name, hs, hv.jsLocation, hv.codePath⟩
  | _ => exact .none

theorem expandEach_twin {α : Type} {R : α → α → Prop} {expand : α → Option (List α)}
    (hexpn : ∀ {a b}, R a b → Option.Rel (List.Forall₂ R) (expand a) (expand b)) {as bs : List α}
    (h : List.Forall₂ R as bs) :
    Option.Rel (List.Forall₂ R) (expandEach expand as) (expandEach expand bs) := by
  rw [expandEach, expandEach, h.any_eq fun hab => (hexpn hab).isSome_eq]
  split
  · exact .some (h.flatMap fun hab => (hexpn hab).getD (.cons hab .nil))
  · exact .none

theorem Signature.Twin.orElse (hL : L.Fair) {s r : Signature} (h : s.Twin L r) {a b : Comments}
    (hab : L.comments a b) :
    Signature.Twin L
      (if s.info.comments.isEmpty then { s with info := s.info.withComments a } else s)
      (if r.info.comments.isEmpty then { r with info := r.info.withComments b } else r) := by
  have hmerge : ∀ (s : Signature) (a : Comments),
      (if s.info.comments.isEmpty then { s with info := s.info.withComments a } else s) =
        { s with
          info := s.info.withComments (if s.info.comments.isEmpty then a else s.info.comments) } := by
    intro s a
    cases s
    split <;> rfl
  rw [hmerge, hmerge]
  cases h with
  | mk hi hps hxs hr => exact .mk ⟨hi.id, hL.orElse hi.comments hab⟩ hps hxs hr

theorem Ty.Twin.toFunctionType? (hL : L.Fair) (h : t.Twin L u) :
    Option.Rel (Ty.Twin L) t.toFunctionType? u.toFunctionType? := by
  cases h with
  | object hi hms =>
    match hms with
    | .nil => exact .none
    | .cons hm (.cons _ _) => cases hm <;> exact .none
    | .cons hm .nil =>
      cases hm with
      | call hc hs =>
        simp only [Ty.toFunctionType?]
        split
        · exact .some (.function (hs.orElse hL
            (hL.comments_append (hL.comments_of_hints hi.hints) hc.comments)))
        · exact .none
      | _ => exact .none
  | _ => exact .none

theorem normalizeFunctions_twin (hL : L.Fair) (strict : Prop) (h : f.Twin L g) :
    (normalizeFunctions f).Twin strict (File.Twin L) (normalizeFunctions g) := by
  have hk : Hooks.Twin .ofId L strict (fun _ _ => True) callableHooks callableHooks :=
    { idle := {}
      idle' := {}
      within := fun _ _ => trivial
      enterFile := fun _ _ => rfl
      enterDecl := fun _ _ => rfl
      newMembers := fun _ _ _ hxs => .of_rel hxs (expandEach_twin (Decl.Twin.toFunctions? hL) hxs)
      newClassMembers := fun _ _ _ hxs => .of_rel hxs (expandEach_twin (Member.Twin.toMethods? hL) hxs)
      leaveDecl := fun _ hx => .of_rel hx .none
      leaveTy := fun _ ht => .of_rel ht (ht.toFunctionType? hL) }
  exact walkFile_twin hk trivial h

/-! ## Replaced types -/

theorem Substitution.Twin.inTy (strict : Prop) (h : Substitution.Twin L a b) (ht : t.Twin L u) :
    (a.inTy t).Twin strict (Ty.Twin L) (b.inTy u) :=
  walkTy_twin (substituteHooks_twin strict) h ht

theorem Substitution.Twin.inFile (strict : Prop) (h : Substitution.Twin L a b) (hfg : f.Twin L g) :
    (a.inFile f).Twin strict (File.Twin L) (b.inFile g) := by
  rw [Substitution.inFile, Substitution.inFile, List.Forall₂.isEmpty_eq h]
  split
  · exact .keep hfg
  · exact walkFile_twin (substituteHooks_twin strict) h hfg

/-! ## Repeated comments -/

section
variable {α : Type} {R : α → α → Prop} {commented? : α → Option Commented} {strip : α → α}

/-- Where the texts correspond, both lists lose the same comments. -/
theorem dropRepeated_twin (strict : Prop) (hc : ∀ {a b}, R a b → commented? a = commented? b)
    (hstrip : ∀ {a b}, R a b → R (strip a) (strip b)) (seen : List Commented) {as bs : List α}
    (h : List.Forall₂ R as bs) :
    (dropRepeated commented? strip seen as).Twin strict (List.Forall₂ R)
      (dropRepeated commented? strip seen bs) := by
  induction h generalizing seen with
  | nil => exact .keep .nil
  | cons hab _ ih =>
    have hcons : ∀ seen', (List.cons _ <$> dropRepeated commented? strip seen' _).Twin strict
        (List.Forall₂ R) (List.cons _ <$> dropRepeated commented? strip seen' _) :=
      fun seen' => (ih seen').map (.cons hab)
    rw [dropRepeated, dropRepeated, hc hab]
    split
    · exact hcons seen
    · exact hcons seen
    · split
      · exact ⟨.cons (hstrip hab) (ih seen).value, fun _ => rfl⟩
      · exact hcons _

/-- Where comments do not matter, it does not matter which of them the lists lose. -/
theorem dropRepeated_rel
    (hR : ∀ {a a' b b'}, R a b → Dropped commented? strip a a' → Dropped commented? strip b b' → R a' b')
    {as bs : List α} (h : List.Forall₂ R as bs) (seen seen' : List Commented) :
    List.Forall₂ R (dropRepeated commented? strip seen as).value
      (dropRepeated commented? strip seen' bs).value := by
  induction h generalizing seen seen' with
  | nil => exact .nil
  | @cons a b as bs hab _ ih =>
    obtain ⟨a', _, has, ha, -⟩ := dropRepeated_cons commented? strip seen a as
    obtain ⟨b', _, hbs, hb, -⟩ := dropRepeated_cons commented? strip seen' b bs
    rw [has, hbs]
    exact .cons (hR hab (.of_repeated ha) (.of_repeated hb)) (ih _ _)

/-- Dropping repeated comments in lists of twins: alike where the texts correspond, and else with a
difference in comments only. -/
theorem dropRepeated_replaced {Texts Free : Prop} (hstr : strict → Texts) (hL : Texts ∨ Free)
    (hc : Texts → ∀ {a b}, R a b → commented? a = commented? b)
    (hstrip : ∀ {a b}, R a b → R (strip a) (strip b))
    (hfree : Free → ∀ {a a' b b'}, R a b → Dropped commented? strip a a' →
      Dropped commented? strip b b' → R a' b') {as bs : List α} (h : List.Forall₂ R as bs) :
    Replaced strict (List.Forall₂ R) as bs (dropRepeated commented? strip [] as).toOption
      (dropRepeated commented? strip [] bs).toOption := by
  refine Edited.Twin.toOption ⟨?_, fun hs => ?_⟩ dropRepeated_unchanged dropRepeated_unchanged
  · rcases hL with htexts | hf
    · exact (dropRepeated_twin (R := R) strict (hc htexts) hstrip [] h).value
    · exact dropRepeated_rel (hfree hf) h [] []
  · exact (dropRepeated_twin (R := R) strict (hc (hstr hs)) hstrip [] h).changed hs

end

theorem Member.Twin.commented?_eq (htexts : L.KeepsTexts) (h : m.Twin L n) : m.commented? = n.commented? := by
  cases h with
  | function hi _ => exact congrArg (fun ts => some (_, ts)) (htexts _ _ hi.comments)
  | _ => rfl

theorem Decl.Twin.commented?_eq (htexts : L.KeepsTexts) (h : d.Twin L e) : d.commented? = e.commented? := by
  cases h with
  | function hf => rw [Decl.commented?, Decl.commented?, hf.name, htexts _ _ hf.info.comments]
  | _ => rfl

theorem Member.Twin.dropped (hfree : ∀ a b, L.comments a b) {m' n' : Member} (h : m.Twin L n)
    (hm : Dropped Member.commented? Member.strip m m')
    (hn : Dropped Member.commented? Member.strip n n') : m'.Twin L n' := by
  have hmn := h
  cases h with
  | function hi hs =>
    rcases hm with rfl | ⟨_, rfl⟩ <;> rcases hn with rfl | ⟨_, rfl⟩ <;>
      exact .function ⟨hi.id, hfree _ _⟩ hs
  | _ =>
    obtain rfl := hm.resolve_right nofun
    obtain rfl := hn.resolve_right nofun
    exact hmn

theorem Decl.Twin.dropped (hfree : ∀ a b, L.comments a b) {d' e' : Decl} (h : d.Twin L e)
    (hd : Dropped Decl.commented? Decl.strip d d') (he : Dropped Decl.commented? Decl.strip e e') :
    d'.Twin L e' := by
  have hde := h
  cases h with
  | function hf =>
    rcases hd with rfl | ⟨_, rfl⟩ <;> rcases he with rfl | ⟨_, rfl⟩ <;>
      exact .function { hf with info := ⟨hf.info.id, hfree _ _⟩ }
  | _ =>
    obtain rfl := hd.resolve_right nofun
    obtain rfl := he.resolve_right nofun
    exact hde

theorem keepFirstOverloadComment_twin (hL : L.Fair) (hstr : strict → L.KeepsTexts) (h : f.Twin L g) :
    (keepFirstOverloadComment f).Twin strict (File.Twin L) (keepFirstOverloadComment g) := by
  have hk : Hooks.Twin .ofId L strict (fun _ _ => True) overloadHooks overloadHooks :=
    { idle := {}
      idle' := {}
      within := fun _ _ => trivial
      enterFile := fun _ _ => rfl
      enterDecl := fun _ _ => rfl
      newMembers := fun _ _ _ hxs => dropRepeated_replaced (R := Decl.Twin L) hstr hL.texts
        (fun ht => Decl.Twin.commented?_eq ht) (Decl.Twin.strip hL) (fun hf => Decl.Twin.dropped hf) hxs
      newClassMembers := fun _ _ _ hxs => dropRepeated_replaced (R := Member.Twin L) hstr hL.texts
        (fun ht => Member.Twin.commented?_eq ht) (Member.Twin.strip hL)
        (fun hf => Member.Twin.dropped hf) hxs
      leaveDecl := fun _ hx => .of_rel hx .none
      leaveTy := fun _ ht => .of_rel ht .none }
  exact walkFile_twin hk trivial h

end

end Ambient
