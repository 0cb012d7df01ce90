import Ambient.Pass.Classes
import Ambient.Pass.Constructors
import Ambient.Pass.Hoist
import Ambient.Pass.Mapped
import Ambient.Proofs.Twin.Answer
import Ambient.Proofs.Twin.Local

/-!
# Twins under the steps that look names up

Mapped types (`expandTypeMappings_twin`), classes for variables (`extractClasses_twin`), inherited
constructors (`forwardCtors_twin`) and hoisted members (`hoistExports_twin`): in twin scopes and twin
sessions each step fails on both twins alike or takes them to twins.
-/

namespace Ambient

variable {c : CtorShape} {d e : Decl} {f g : File} {ds es : List Decl} {ms ns : List Member} {t u : Ty}
  {v w : VarDecl}

section
variable {L : Leeway}

/-! ## Mapped types -/

theorem propertyType?_twin (x : Ident) (h : Member.Twins L ms ns) :
    Option.Rel (Ty.Twin L) (propertyType? x ms) (propertyType? x ns) := by
  refine h.findSome? fun hm => ?_
  cases hm with
  | property _ ht _ =>
    simp only
    split
    · exact ht
    · exact .none
  | _ => exact .none

section
variable (hL : L.Fair) {s s' : Scope} (hs : s.Twin L s')
include hL hs

theorem accessedType?_twin (h : t.Twin L u) :
    (resolving L).rel (Option.Rel (Ty.Twin L)) (accessedType? s t) (accessedType? s' u) := by
  cases h with
  | lookup _ ht hk =>
    cases hk with
    | @literal _ _ v _ =>
      cases v with
      | str x =>
        cases ht with
        | object _ hms => exact .pure (propertyType?_twin x hms)
        | ref _ _ =>
          refine .bind (Resolve.afresh_twin (Scope.membersOf_twin hL hs .nil _))
            fun _ _ hms => ?_
          exact .pure (hms.bind (propertyType?_twin x))
        | _ => exact .pure .none
      | _ => cases ht <;> exact .pure .none
    | _ => cases ht <;> exact .pure .none
  | _ => exact .pure .none

theorem accessHooks_twin :
    Hooks.Twin (resolving L) L True (fun _ _ => True) (accessHooks s) (accessHooks s') :=
  leaveTy_twin (resolving L) (fun _ _ => trivial) fun _ ht => accessedType?_twin hL hs ht

omit hs in
theorem OptionalModifier.apply_twin (o : OptionalModifier) (h : t.Twin L u) :
    (o.apply t).Twin L (o.apply u) := by
  cases o with
  | optionalize => exact makeOptional_twin hL h
  | deoptionalize => exact (extractOptional?_twin hL h).getD h
  | noop => exact h

theorem MappedMember.propertyFor_twin {m n : MappedMember} (h : (Member.mapped m).Twin L (.mapped n))
    (x : Ident) : (resolving L).rel (Member.Twin L) (m.propertyFor s x) (n.propertyFor s' x) := by
  cases h with
  | @mapped _ _ _ _ key _ _ _ _ o _ _ _ _ _ ht =>
    have hsub : Substitution.Twin L [(.ref {} [key] [], .literal 0 (.str x))]
        [(.ref {} [key] [], .literal 0 (.str x))] :=
      .cons ⟨.ref hL.fresh .nil, .literal hL.id_zero⟩ .nil
    have ht := (hsub.inTy True ht).value
    refine .bind (walkTy_twin (accessHooks_twin hL hs) trivial ht) fun _ _ ht => ?_
    have ht := OptionalModifier.apply_twin hL o ht.value
    exact .pure (.property hL.fresh (.some ht) .none)

theorem MappedMember.propertiesFor_twin {m n : MappedMember} (h : (Member.mapped m).Twin L (.mapped n))
    (xs : List Ident) :
    (resolving L).rel (Member.Twins L) (m.propertiesFor s xs) (n.propertiesFor s' xs) := by
  induction xs with
  | nil => exact .pure .nil
  | cons x xs ih =>
    exact .bind (propertyFor_twin hL hs h x) fun _ _ hm =>
      .bind ih fun _ _ hms => .pure (.cons hm hms)

theorem expandMapped_twin (h : t.Twin L u) :
    (resolving L).rel (Option.Rel (Ty.Twin L)) (expandMapped s t) (expandMapped s' u) := by
  cases h with
  | object hi hms =>
    match hms with
    | .nil => exact .pure .none
    | .cons hm (.cons _ _) => cases hm <;> exact .pure .none
    | .cons hm .nil =>
      have hm' := hm
      cases hm with
      | mapped hj hsrc ha _ =>
        simp only [expandMapped, ha.isSome_eq]
        split
        · exact .pure .none
        refine .bind (Resolve.afresh_twin (Scope.evaluateKeys_twin hL hs .nil hsrc))
          fun keys _ hkeys => ?_
        subst hkeys
        cases keys with
        | none => exact .pure .none
        | some keys =>
          refine .bind (MappedMember.propertiesFor_twin hL hs hm' keys) fun _ _ hms => ?_
          exact .pure (.some (.object ⟨hi.id, hL.hints_append hi.hints hj.hints⟩ hms))
      | _ => exact .pure .none
  | _ => exact .pure .none

theorem expandTypeMappings_twin (h : f.Twin L g) :
    (resolving L).rel (Edited.Twin True (File.Twin L)) (expandTypeMappings s f)
      (expandTypeMappings s' g) := by
  have hk : Hooks.Twin (resolving L) L True (Scope.Twin L) mappedHooks mappedHooks :=
    leaveTy_twin (resolving L) (fun hs hxy => hs.enter hxy) fun hs ht => expandMapped_twin hL hs ht
  exact walkFile_twin hk hs h

end

/-! ## Classes -/

structure CtorShape.Twin (L : Leeway) (c d : CtorShape) : Prop where
  first : c.first.Twin L d.first
  rest : List.Forall₂ (Signature.Twin L) c.rest d.rest
  statics : List.Forall₂ (Member.Twin L) c.statics d.statics
  isAbstract : c.isAbstract = d.isAbstract

structure InstanceSide.Twin (L : Leeway) (c d : InstanceSide) : Prop where
  parent : Option.Rel (Ty.Twin L) c.parent d.parent
  implements : List.Forall₂ (Ty.Twin L) c.implements d.implements
  members : List.Forall₂ (Member.Twin L) c.members d.members

theorem CtorShape.Twin.ctors {d : CtorShape} (h : c.Twin L d) :
    List.Forall₂ (Signature.Twin L) c.ctors d.ctors :=
  .cons h.first h.rest

theorem splitStatics_twin (h : Member.Twins L ms ns) :
    Option.Rel (Both (List.Forall₂ (Signature.Twin L)) (Member.Twins L))
      (splitStatics ms) (splitStatics ns) := by
  induction h with
  | nil => exact .some ⟨.nil, .nil⟩
  | cons hm _ ih =>
    refine ih.bind fun {p q} hpq => ?_
    cases hm with
    | ctor _ hs => exact .some ⟨.cons hs hpq.fst, hpq.snd⟩
    | property hi ht he =>
      simp only
      split
      · exact .some hpq
      · exact .some ⟨hpq.fst, .cons (.property hi ht he) hpq.snd⟩
    | function hi hs => exact .some ⟨hpq.fst, .cons (.function hi hs) hpq.snd⟩
    | _ => exact .none

theorem CtorShape.ofMembers?_twin (h : Member.Twins L ms ns) :
    Option.Rel (CtorShape.Twin L) (CtorShape.ofMembers? ms) (CtorShape.ofMembers? ns) := by
  have hsplit := splitStatics_twin h
  rw [CtorShape.ofMembers?, CtorShape.ofMembers?]
  generalize splitStatics ms = x at hsplit ⊢
  generalize splitStatics ns = y at hsplit ⊢
  cases hsplit with
  | none => exact .none
  | @some p q hpq =>
    obtain ⟨sigs, statics⟩ := p
    obtain ⟨sigs', statics'⟩ := q
    have hsigs : List.Forall₂ (Signature.Twin L) sigs sigs' := hpq.fst
    cases hsigs with
    | nil => exact .none
    | cons hsig hsigs => exact .some ⟨hsig, hsigs, hpq.snd, rfl⟩

theorem Decl.Twin.isPlainInterface_eq (h : d.Twin L e) : d.isPlainInterface = e.isPlainInterface := by
  cases h with
  | iface hi => exact hi.tparams.isEmpty_eq
  | _ => rfl

theorem instanceMembers_twin (h : Member.Twins L ms ns) :
    Member.Twins L (instanceMembers ms) (instanceMembers ns) :=
  h.filter fun hm => by cases hm <;> rfl

theorem ctorMember_twin (hL : L.Fair) {s r : Signature} (h : s.Twin L r) :
    (ctorMember s).Twin L (ctorMember r) :=
  .function (hL.new h.info.comments) (.mk hL.fresh .nil h.params .none)

theorem CtorShape.Twin.result {d : CtorShape} (h : c.Twin L d) :
    Option.Rel (Ty.Twin L) c.result d.result := by
  rw [CtorShape.result, CtorShape.result,
    h.ctors.all_eq fun hs => option_beq_twin Ty.beq_twin hs.result h.first.result]
  split
  · exact h.first.result
  · exact .none

theorem isTypeOf_eq (h : Decl.Twins L ds es) (hd : d.Twin L e) (x : Ident) :
    isTypeOf ds d x = isTypeOf es e x :=
  h.any_eq fun ho => by
    have ho := ho.unwrapExport
    rw [ho.isType_eq, Decl.beq_twin hd ho, ho.name?_eq]

theorem className?_eq (suffix : String) (h : Decl.Twins L ds es) (hv : v.Twin L w) :
    className? suffix ds v = className? suffix es w := by
  have hnamed : ∀ x, (ds.any fun d => d.unwrapExport.name? == some x) =
      es.any fun d => d.unwrapExport.name? == some x :=
    fun x => h.any_eq fun ho => by rw [ho.unwrapExport.name?_eq]
  have hclass : ∀ x, (ds.any fun d => d.unwrapExport.isClass && d.unwrapExport.name? == some x) =
      es.any fun d => d.unwrapExport.isClass && d.unwrapExport.name? == some x :=
    fun x => h.any_eq fun ho => by rw [ho.unwrapExport.isClass_eq, ho.unwrapExport.name?_eq]
  simp only [className?, hclass, hnamed, isTypeOf_eq h (.var hv), hv.name]

theorem ClassDecl.Twin.renamed {c d : ClassDecl} (h : c.Twin L d) (x : Ident) :
    Alike (Decl.Twin L) ((Decl.cls c).renamed x) ((Decl.cls d).renamed x) := by
  simp only [Decl.renamed, Decl.name?, Decl.codePath?, h.name, h.codePath]
  split
  · exact .error
  · exact .ok (.cls { h with name := rfl, codePath := rfl })

theorem ClassDecl.Twin.underName {c d : ClassDecl} (h : c.Twin L d) {y z : Ident} (hyz : y = z)
    (x : Ident) :
    (resolving L).rel (Decl.Twin L)
      (if x = y then pure (.cls c)
        else match (Decl.cls c).renamed x with
          | .ok d => pure d
          | .error e => throw (.violation e))
      (if x = z then pure (.cls d)
        else match (Decl.cls d).renamed x with
          | .ok d => pure d
          | .error e => throw (.violation e)) := by
  subst hyz
  split
  · exact .pure (.cls h)
  · have hr := h.renamed x
    generalize (Decl.cls c).renamed x = r at hr ⊢
    generalize (Decl.cls d).renamed x = r' at hr ⊢
    cases hr with
    | error => exact resolving_throw _
    | ok hd => exact .pure hd

section
variable (hL : L.Fair) {s s' : Scope} (hs : s.Twin L s')
include hL hs

theorem ctorShape?_twin (h : t.Twin L u) :
    (resolving L).rel (Option.Rel (CtorShape.Twin L)) (ctorShape? s t) (ctorShape? s' u) := by
  cases h with
  | constructor _ hsig => exact .pure (.some ⟨hsig, .nil, .nil, rfl⟩)
  | object _ hms => exact .pure (CtorShape.ofMembers?_twin hms)
  | ref _ hts =>
    cases hts with
    | nil =>
      refine .bind (Scope.lookupType_twin hL hs .nil _) fun _ _ hfound => ?_
      rw [hfound.any_eq fun hf => hf.decl.isPlainInterface_eq]
      split
      · exact .bind (Scope.membersOf_twin hL hs .nil _) fun _ _ hms =>
          .pure (hms.bind CtorShape.ofMembers?_twin)
      · exact .pure .none
    | cons => exact .pure .none
  | _ => exact .pure .none

theorem instanceSide_twin {ps qs : List TypeParam} (hps : TypeParam.Twins L ps qs)
    {t u : Option Ty} (h : Option.Rel (Ty.Twin L) t u) :
    (resolving L).rel (InstanceSide.Twin L) (instanceSide s ps t) (instanceSide s' qs u) := by
  have hempty : (resolving L).rel (InstanceSide.Twin L) (pure {}) (pure {}) :=
    .pure ⟨.none, .nil, .nil⟩
  cases h with
  | none => exact hempty
  | some ht =>
    have htu := ht
    cases ht with
    | object _ hms => exact .pure ⟨.none, .nil, instanceMembers_twin hms⟩
    | @ref _ _ x _ _ _ _ =>
      have hparam : (fun x => ps.any fun p => p.name == x) = fun x => qs.any fun p => p.name == x :=
        funext fun x => hps.any_eq fun hp => by rw [hp.name_eq]
      simp only [instanceSide, hparam]
      split
      · exact hempty
      refine .bind (Scope.lookupType_twin hL hs .nil _) fun _ _ hfound => ?_
      simp only [hfound.any_eq fun hf => hf.decl.isClass_eq,
        hfound.any_eq fun hf => hf.decl.isInterface_eq]
      split
      · exact .pure ⟨.some htu, .nil, .nil⟩
      split
      · exact .bind (Scope.membersOf_twin hL hs .nil _) fun _ _ hms =>
          .pure ⟨.none, .cons htu .nil, instanceMembers_twin (hms.getD .nil)⟩
      · exact hempty
    | _ => exact hempty

theorem classOf_twin (hv : v.Twin L w) {d : CtorShape} (hc : c.Twin L d) (x : Ident) :
    (resolving L).rel (Decl.Twin L) (classOf s v c x) (classOf s' w d x) := by
  refine .bind (instanceSide_twin hL hs hc.first.tparams hc.result)
    fun inst inst' hinst => ?_
  have hmems : Member.Twins L (c.ctors.map ctorMember ++ inst.members ++ c.statics)
      (d.ctors.map ctorMember ++ inst'.members ++ d.statics) :=
    List.Forall₂.append (List.Forall₂.append
      (List.rel_map (fun _ _ hs => ctorMember_twin hL hs) hc.ctors) hinst.members) hc.statics
  exact ClassDecl.Twin.underName
    { info := hL.new (hL.withMarker .expandedClass hv.info.comments)
      declared := hv.declared
      isAbstract := hc.isAbstract
      name := hv.name
      tparams := hc.first.tparams
      parent := hinst.parent
      implements := hinst.implements
      members := hmems
      jsLocation := hv.jsLocation
      codePath := hv.codePath } hv.name x

theorem extractVar_twin (suffix : String) (hds : Decl.Twins L ds es) (hv : v.Twin L w) :
    (resolving L).rel (Option.Rel (Decl.Twin L)) (extractVar suffix s ds v)
      (extractVar suffix s' es w) := by
  simp only [extractVar, hv.expr.isSome_eq, className?_eq suffix hds hv]
  split
  · exact .pure .none
  have htpe := hv.tpe
  generalize v.tpe = t at htpe ⊢
  generalize w.tpe = u at htpe ⊢
  cases htpe with
  | none => exact .pure .none
  | some ht =>
    refine .bind (ctorShape?_twin hL hs ht) fun _ _ hshape => ?_
    cases hshape with
    | none => exact .pure .none
    | some hshape =>
      simp only [hshape.ctors.any_eq fun hc => congrArg (!·)
        (list_beq_twin TypeParam.beq_twin hc.tparams hshape.first.tparams)]
      split
      · exact .pure .none
      cases className? suffix es w with
      | none => exact .pure .none
      | some x =>
        exact .bind (classOf_twin hL hs hv hshape x) fun _ _ hd =>
          .pure (.some hd)

theorem extractClass_twin (suffix : String) (hds : Decl.Twins L ds es) (h : d.Twin L e) :
    (resolving L).rel (Option.Rel (Decl.Twin L)) (extractClass suffix s ds d)
      (extractClass suffix s' es e) := by
  cases h with
  | var hv => exact extractVar_twin hL hs suffix hds hv
  | exports hh he =>
    cases he with
    | inline hd =>
      cases hd with
      | var hv =>
        exact .bind (extractVar_twin hL hs suffix hds hv) fun _ _ hc =>
          .pure (hc.map fun hc => .exports hh (.inline hc))
      | _ => exact .pure .none
    | _ => exact .pure .none
  | _ => exact .pure .none

theorem extractEach_twin (suffix : String) (hds : Decl.Twins L ds es) {xs ys : List Decl}
    (h : Decl.Twins L xs ys) :
    (resolving L).rel (Edited.Twin True (Decl.Twins L)) (extractEach suffix s ds xs)
      (extractEach suffix s' es ys) := by
  induction h with
  | nil => exact .pure (.keep .nil)
  | cons hd _ ih =>
    refine .bind (Resolve.afresh_twin (extractClass_twin hL hs suffix hds hd))
      fun _ _ hc => ?_
    refine .bind ih fun _ _ hrest => .pure ?_
    have hkeep : Edited.Twin True (Decl.Twin L) (.keep _) (.keep _) := .keep hd
    exact .ap ((hkeep.replace (.of_rel hd hc)).map fun hd _ _ hds => .cons hd hds) hrest

theorem extractClasses_twin (suffix : String) (h : f.Twin L g) :
    (resolving L).rel (Edited.Twin True (File.Twin L)) (extractClasses suffix s f)
      (extractClasses suffix s' g) := by
  have hk : Hooks.Twin (resolving L) L True (Scope.Twin L) (classHooks suffix) (classHooks suffix) :=
    newMembers_twin (resolving L) (fun hs hxy => hs.enter hxy) fun hs hds =>
      .bind (extractEach_twin hL hs suffix hds hds) fun _ _ he =>
        .pure he.toOption_rel
  exact walkFile_twin hk hs h

/-! ## Inherited constructors -/

theorem forwardTo_twin (h : d.Twin L e) :
    (resolving L).rel (Option.Rel (Decl.Twin L)) (forwardTo s d) (forwardTo s' e) := by
  cases h with
  | @cls c c' hc =>
    simp only [forwardTo, hc.members.any_eq Member.Twin.isClassCtor_eq]
    split
    · exact .pure .none
    have hpar := hc.parent
    generalize c.parent = t at hpar ⊢
    generalize c'.parent = u at hpar ⊢
    cases hpar with
    | none => exact .pure .none
    | some ht =>
      have htu := ht
      cases ht with
      | ref _ hts =>
        refine .bind (Resolve.afresh_twin (Scope.ctorsOf_twin hL hs .nil _ hts))
          fun _ _ hms => ?_
        cases hms with
        | nil => exact .pure .none
        | cons hm hms =>
          exact .pure (.some (.cls { hc with
            parent := .some htu
            members := List.Forall₂.append (.cons hm hms) hc.members }))
      | _ => exact .pure .none
  | _ => exact .pure .none

theorem forwardCtors_twin (h : f.Twin L g) :
    (resolving L).rel (Edited.Twin True (File.Twin L)) (forwardCtors s f) (forwardCtors s' g) := by
  have hk : Hooks.Twin (resolving L) L True (Scope.Twin L) constructorHooks constructorHooks :=
    { idle := {}
      idle' := {}
      within := fun hs hxy => hs.enter hxy
      enterFile := fun _ _ => .pure rfl
      enterDecl := fun _ _ => .pure rfl
      newMembers := fun _ _ _ hxs => .pure (.of_rel hxs .none)
      newClassMembers := fun _ _ _ hxs => .pure (.of_rel hxs .none)
      leaveDecl := fun hs hx => (resolving L).mono (forwardTo_twin hL hs hx) fun h => .of_rel hx h
      leaveTy := fun _ ht => .pure (.of_rel ht .none) }
  exact walkFile_twin hk hs h

end

/-! ## Hoisted members -/

theorem exportEqualsTargets_eq (h : Decl.Twins L ds es) :
    exportEqualsTargets ds = exportEqualsTargets es := by
  refine h.filterMap_eq fun hd => ?_
  cases hd with
  | @exports h g _ _ hh he =>
    obtain ⟨i, _, kind⟩ := h
    obtain ⟨j, _, _⟩ := g
    obtain rfl : kind = _ := hh.kind
    cases he with
    | @names xs source =>
      -- The only names that count are one simple name, not renamed and from no other module.
      rcases xs with _ | ⟨⟨_ | ⟨_, _ | _⟩, _ | _⟩, _ | _⟩ <;> cases source <;> rfl
    | _ => rfl
  | _ => rfl

theorem hoistMember_twin (hL : L.Fair) (hv : v.Twin L w) (p : CodePath) {m n : Member} (h : m.Twin L n) :
    Alike (Option.Rel (Decl.Twin L)) (hoistMember v p m) (hoistMember w p n) := by
  have hadd : ∀ x, v.jsLocation.add x = w.jsLocation.add x := fun x => by rw [hv.jsLocation]
  have hplace : ∀ (x : Ident) {k k' : CodePath → Decl}, (∀ q, (k q).Twin L (k' q)) →
      Alike (Option.Rel (Decl.Twin L)) (do return some (k (← relocated p x)))
        (do return some (k' (← relocated p x))) := by
    intro x k k' hk
    cases relocated p x with
    | error e => exact .error
    | ok q => exact .ok (.some (hk q))
  cases h with
  | call hi hs =>
    exact hplace Ident.apply fun q => .function ⟨hL.new hi.comments, rfl, rfl, hs, hadd Ident.apply, rfl⟩
  | function hi hs =>
    simp only [hoistMember]
    split
    · exact .ok .none
    · exact hplace _ fun q => .function ⟨hL.new hi.comments, rfl, rfl, hs, hadd _, rfl⟩
  | property hi ht he =>
    simp only [hoistMember]
    split
    · exact .ok .none
    · exact hplace _ fun q =>
        .var ⟨hL.new hi.comments, rfl, rfl, rfl, ht, .none, hadd _, rfl⟩
  | _ => exact .ok .none

theorem hoistMembers_twin (hL : L.Fair) (hv : v.Twin L w) (p : CodePath)
    (h : Member.Twins L ms ns) :
    Alike (Decl.Twins L) (hoistMembers v p ms) (hoistMembers w p ns) := by
  induction h with
  | nil => exact .ok .nil
  | cons hm _ ih =>
    exact (Pairing.ofExcept Failure).bind (hoistMember_twin hL hv p hm) fun _ _ hd =>
      (Pairing.ofExcept Failure).bind ih fun _ _ hds => .ok (hd.toList.append hds)

section
variable (hL : L.Fair) {s s' : Scope} (hs : s.Twin L s')
include hL hs

theorem membersOfVar_twin (hv : v.Twin L w) :
    (resolving L).rel (Member.Twins L) (membersOfVar s v) (membersOfVar s' w) := by
  have htpe := hv.tpe
  rw [membersOfVar, membersOfVar]
  generalize v.tpe = t at htpe ⊢
  generalize w.tpe = u at htpe ⊢
  cases htpe with
  | none => exact .pure .nil
  | some ht =>
    cases ht with
    | object _ hms => exact .pure hms
    | ref _ _ =>
      exact .bind (Resolve.afresh_twin (Scope.membersOf_twin hL hs .nil _)) fun _ _ hms =>
        .pure (hms.getD .nil)
    | _ => exact .pure .nil

theorem hoistedBy_twin (targets existing : List Ident) (h : d.Twin L e) :
    (resolving L).rel (Decl.Twins L) (hoistedBy s targets existing d)
      (hoistedBy s' targets existing e) := by
  cases h with
  | var hv =>
    simp only [hoistedBy, hv.name, hs.codePath_eq]
    split
    · refine .bind (membersOfVar_twin hL hs hv) fun _ _ hms => ?_
      refine .bind (Pairing.lift_rel _ (hoistMembers_twin hL hv _ hms)) fun _ _ hds => ?_
      exact .pure (hds.filter fun hd => by rw [hd.name?_eq])
    · exact .pure .nil
  | _ => exact .pure .nil

theorem hoistAll_twin (targets existing : List Ident) (h : Decl.Twins L ds es) :
    (resolving L).rel (Edited.Twin True (Decl.Twins L)) (hoistAll s targets existing ds)
      (hoistAll s' targets existing es) := by
  induction h with
  | nil => exact .pure (.keep .nil)
  | cons hd _ ih =>
    refine .bind (hoistedBy_twin hL hs targets existing hd) fun _ _ hhst => ?_
    refine .bind ih fun _ _ hrest => .pure ⟨?_, fun _ => ?_⟩
    · exact .cons hd (hhst.append hrest.value)
    · exact congrArg₂ Bool.or (congrArg (!·) hhst.isEmpty_eq) (hrest.changed trivial)

theorem hoistExports_twin (h : f.Twin L g) :
    (resolving L).rel (Edited.Twin True (File.Twin L)) (hoistExports s f) (hoistExports s' g) := by
  have hk : Hooks.Twin (resolving L) L True (Scope.Twin L) hoistHooks hoistHooks := by
    refine newMembers_twin (resolving L) (fun hs hxy => hs.enter hxy) fun hs hds => ?_
    rw [exportEqualsTargets_eq hds, hds.filterMap_eq Decl.Twin.name?_eq]
    dsimp only
    split
    · exact .pure .none
    · exact .bind (hoistAll_twin hL hs _ _ hds) fun _ _ he =>
        .pure he.toOption_rel
  exact walkFile_twin hk hs h

end

end

end Ambient
