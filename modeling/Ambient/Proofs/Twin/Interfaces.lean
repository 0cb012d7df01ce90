import Ambient.Pass.Interfaces
import Ambient.Proofs.Twin.Answer
import Ambient.Proofs.Twin.Equal

/-!
# Twins under the extraction of interfaces

The extraction looks at twins alike: at the names a literal mentions, at what they mean, at the
interfaces that wait. So it gives both the same interfaces under the same names, twins again
(`extractInterfaces_twin`). The names come from the members or from hints, which a fair leeway keeps.
-/

namespace Ambient

variable {ms ns : List Member} {ps qs : List TypeParam} {x y : Node} {c c' : Scope} {t u : Ty}

variable {cs : Comments} {k : Kind} {ds es : List (Ident × TypeParam)} {is js : List Scope}
  {ts us : List Ty} {d : Scope} {α β : Type}

section
variable {L : Leeway}

/-! ## What literals mention -/

/-- The types in a thing. Those of initialisers do not count. -/
def Kind.parts : (k : Kind) → k.Of → List Ty
  | .member, x => x.parts
  | .ty, t => t.parts
  | .sig, s => s.parts
  | .param, p => Ty.partsOption p.tpe
  | .tparam, p => p.parts
  | .file, _ | .decl, _ | .expr, _ => []

def Form.parts {α : Type} : Form α → List Ty
  | .pure _ => []
  | .one k a => k.parts a
  | .map _ x => x.parts
  | .ap f x => f.parts ++ x.parts

theorem Form.parts_each {f : α → Form β} {w : List α → List Ty} (hnil : w [] = [])
    (hcons : ∀ a as, w (a :: as) = (f a).parts ++ w as) (as : List α) : (each f as).parts = w as := by
  induction as with
  | nil => exact hnil.symm
  | cons a as ih => rw [each, parts, ih, hcons, parts]

theorem Ty.parts_form (t : Ty) : t.parts = t :: t.form.parts := by
  have hts := Form.parts_each (f := .one .ty) (w := Ty.partsList) rfl fun _ _ => rfl
  have hms := Form.parts_each (f := .one .member) (w := Member.partsList) rfl fun _ _ => rfl
  have hes := Form.parts_each (f := TupleElem.form) (w := TupleElem.partsList) rfl fun ⟨_, _⟩ _ => rfl
  cases t <;> simp only [Ty.parts, Ty.form, Form.parts, Kind.parts, hts, hms, hes]

theorem Kind.parts_form (a : k.Of) (hk : k = .member ∨ k = .sig ∨ k = .param ∨ k = .tparam) :
    k.parts a = (k.form a).parts := by
  have hopt : ∀ t : Option Ty, (Form.opt (.one .ty) t).parts = Ty.partsOption t := by
    rintro (_ | t) <;> rfl
  have hexpr : ∀ e : Option Expr, (Form.opt (.one .expr) e).parts = [] := by
    rintro (_ | e) <;> rfl
  rcases hk with rfl | rfl | rfl | rfl
  · simp only [Kind.parts]
    unfold Member.parts
    split <;> simp [Kind.form, Member.form, Form.parts, Kind.parts, hopt, hexpr]
  · obtain ⟨i, ps, xs, r⟩ := a
    simp only [Kind.parts, Kind.form, Signature.form, Form.parts, Signature.parts, hopt,
      Form.parts_each (f := .one .tparam) (w := TypeParam.partsList) rfl fun _ _ => rfl,
      Form.parts_each (f := .one .param) (w := Param.partsList) rfl fun p _ => by cases p; rfl]
  · exact (hopt _).symm
  · obtain ⟨i, x, b, d⟩ := a
    simp only [Kind.parts, Kind.form, TypeParam.form, Form.parts, TypeParam.parts, hopt]

theorem Form.parts_twin {K : Leeway} {R : α → β → Prop} {x : Form α} {y : Form β}
    (hx : Form.Twin L K R x y) (hone : x.All fun k a => ∀ {b}, k.Twin L a b →
      Ty.Twins L (k.parts a) (k.parts b)) : Ty.Twins L x.parts y.parts := by
  induction hx with
  | pure => exact .nil
  | one hab => exact hone hab
  | map _ _ ih => exact ih hone
  | ap _ _ ihf ihx => exact (ihf hone.1).append (ihx hone.2)

theorem Kind.parts_twin {a b : k.Of} (h : k.Twin L a b) : Ty.Twins L (k.parts a) (k.parts b) := by
  induction k, a using Kind.induct with
  | step k a ih =>
  have hform := Form.parts_twin h.form ih
  cases k with
  | file | decl | expr => exact .nil
  | ty =>
    rw [Kind.parts, Kind.parts, Ty.parts_form, Ty.parts_form]
    exact .cons h hform
  | member | sig | param | tparam =>
    rw [Kind.parts_form _ (by simp), Kind.parts_form _ (by simp)]
    exact hform

theorem Ty.parts_twin (h : t.Twin L u) : Ty.Twins L t.parts u.parts :=
  Kind.parts_twin (k := .ty) h

theorem Member.partsList_twin (h : Member.Twins L ms ns) :
    Ty.Twins L (Member.partsList ms) (Member.partsList ns) := by
  induction h with
  | nil => exact .nil
  | cons h _ ih => exact (Kind.parts_twin (k := .member) h).append ih

theorem TypeParam.partsList_twin (h : TypeParam.Twins L ps qs) :
    Ty.Twins L (TypeParam.partsList ps) (TypeParam.partsList qs) := by
  induction h with
  | nil => exact .nil
  | cons h _ ih => exact (Kind.parts_twin (k := .tparam) h).append ih

theorem namesMentioned_eq (hps : TypeParam.Twins L ps qs)
    (h : Member.Twins L ms ns) : namesMentioned ps ms = namesMentioned qs ns := by
  have hnames := ((Member.partsList_twin h).append (TypeParam.partsList_twin hps)).filterMap_eq
    Ty.Twin.refName?_eq
  have hparam : ∀ x, (ps.any fun p => p.name == x) = qs.any fun p => p.name == x :=
    fun x => hps.any_eq fun hp => by rw [hp.name_eq]
  simp only [namesMentioned, hnames, hparam]

/-! ## The type parameters a literal depends on -/

theorem wantNames_twin (hd : List.Forall₂ (Both Eq (TypeParam.Twin L)) ds es) (xs wanted : List Ident)
    (h : Ty.Twins L ts us) :
    Both Eq (Ty.Twins L) (wantNames ds xs wanted ts) (wantNames es xs wanted us) := by
  induction xs generalizing wanted ts us with
  | nil => exact ⟨rfl, h⟩
  | cons x xs ih =>
    rw [wantNames, wantNames]
    split
    · exact ih wanted h
    · have hlook := lookup_twin (K := Eq) (fun hk hl => by rw [hk, hl]) hd (k := x) rfl
      generalize ds.lookup x = p at hlook ⊢
      generalize es.lookup x = q at hlook ⊢
      cases hlook with
      | none => exact ih wanted h
      | some hp => exact ih _ ((hp.default.toList.append hp.upperBound.toList).append h)

theorem wantedFrom_eq (hd : List.Forall₂ (Both Eq (TypeParam.Twin L)) ds es) (n : Nat)
    (wanted : List Ident) (h : Ty.Twins L ts us) :
    wantedFrom ds n wanted ts = wantedFrom es n wanted us := by
  induction n generalizing wanted ts us with
  | zero => rfl
  | succ n ih =>
    cases h with
    | nil => rfl
    | @cons t u _ _ ht hrest =>
      have hmnts : t.simpleMentions = u.simpleMentions := by
        rw [Ty.simpleMentions, Ty.simpleMentions, Ty.mentions, Ty.mentions,
          (Ty.parts_twin ht).filterMap_eq Ty.Twin.refName?_eq]
      have hwant := wantNames_twin hd u.simpleMentions wanted hrest
      rw [wantedFrom, wantedFrom, hmnts]
      simp only
      rw [hwant.fst, ih _ hwant.snd]

theorem Scope.Twin.paramsOf {s s' : Scope} (hs : s.Twin L s') (h : t.Twin L u) :
    TypeParam.Twins L (s.paramsOf t) (s'.paramsOf u) := by
  have hnodes : List.Forall₂ (Node.Twin L) s.stack.reverse s'.stack.reverse :=
    List.rel_reverse hs.stack
  have hd : List.Forall₂ (Both Eq (TypeParam.Twin L)) (declaredParams s.stack.reverse)
      (declaredParams s'.stack.reverse) :=
    putAll_twin (fun hk hl => by rw [hk, hl]) (hnodes.flatMap fun hn =>
      List.rel_map (fun _ _ hp => ⟨hp.name_eq, hp⟩) hn.tparams)
  rw [Scope.paramsOf, Scope.paramsOf, hd.length_eq, wantedFrom_eq hd _ _ (.cons h .nil)]
  exact List.rel_map (fun _ _ hp => hp.snd) (hd.filter fun hp => congrArg (List.contains _) hp.fst)

/-! ## Where literals stand -/

theorem Node.Twin.namesItsType_eq (h : x.Twin L y) : x.namesItsType = y.namesItsType := by
  cases h with
  | member hm => cases hm <;> rfl
  | decl hd => cases hd <;> rfl
  | _ => rfl

theorem Node.Twin.isTy_eq (h : x.Twin L y) : x.isTy = y.isTy := by
  cases h <;> rfl

theorem Node.Twin.isConditional_eq (h : x.Twin L y) : x.isConditional = y.isConditional := by
  cases h with
  | ty ht => cases ht <;> rfl
  | _ => rfl

theorem Scope.Twin.isExtractable_eq {s s' : Scope} (h : s.Twin L s') :
    s.isExtractable = s'.isExtractable := by
  have hfind := (List.forall₂_drop 1 h.stack).find? fun hn => congrArg (!·) hn.isTy_eq
  rw [isExtractable, isExtractable, h.stack.any_eq Node.Twin.isConditional_eq,
    hfind.any_eq Node.Twin.namesItsType_eq]

theorem Scope.Twin.containers {s s' : Scope} (h : s.Twin L s') :
    List.Forall₂ (Scope.Twin L) s.containers s'.containers :=
  h.outwards.filter Scope.Twin.isContainer_eq

/-! ## Interfaces that wait -/

/-- Twin interfaces wait for containers that correspond. -/
def PendingByScope.Twin (L : Leeway) : PendingByScope → PendingByScope → Prop :=
  List.Forall₂ (Both (ScopeKey.Twin L) (List.Forall₂ (InterfaceDecl.Twin L)))

namespace PendingByScope.Twin

variable {p q : PendingByScope}

theorem waiting (hL : L.Fair) (h : PendingByScope.Twin L p q) (hc : c.Twin L d) :
    List.Forall₂ (InterfaceDecl.Twin L) (p.waiting c) (q.waiting d) :=
  (lookup_twin (ScopeKey.Twin.beq_eq hL) h (hc.key hL)).getD .nil

theorem add (hL : L.Fair) (h : PendingByScope.Twin L p q) (hc : c.Twin L d) {i j : InterfaceDecl}
    (hi : i.Twin L j) : PendingByScope.Twin L (p.add c i) (q.add d j) :=
  put_twin (ScopeKey.Twin.beq_eq hL) h (hc.key hL) ((h.waiting hL hc).append (.cons hi .nil))

theorem isTaken_eq (hL : L.Fair) (h : PendingByScope.Twin L p q) {cs ds : List Scope}
    (hcs : List.Forall₂ (Scope.Twin L) cs ds) (x : Ident) : p.isTaken cs x = q.isTaken ds x :=
  hcs.any_eq fun hc => (h.waiting hL hc).any_eq fun hi => by rw [hi.name]

end PendingByScope.Twin

theorem findEqual?_twin {p q : Pending} (h : List.Forall₂ (InterfaceDecl.Twin L) p q)
    (hps : TypeParam.Twins L ps qs) (hms : Member.Twins L ms ns) :
    Option.Rel (InterfaceDecl.Twin L) (p.findEqual? ps ms) (q.findEqual? qs ns) :=
  h.find? fun hi => by
    rw [list_beq_twin TypeParam.beq_twin hi.tparams hps, list_beq_twin Member.beq_twin hi.members hms]

/-! ## Placing interfaces -/

section
variable {m n : Type → Type} [Monad m] [Monad n] [LawfulMonad m] [LawfulMonad n] (P : Pairing m n)
  {f : Ident → m Bool} {g : Ident → n Bool} (hfg : ∀ x, P.rel Eq (f x) (g x))
include hfg

theorem firstFree_twin (xs : List Ident) : P.rel Eq (firstFree f xs) (firstFree g xs) := by
  induction xs with
  | nil => exact P.pure rfl
  | cons x xs ih =>
    refine P.bind (hfg x) fun b _ hb => ?_
    subst hb
    cases b with
    | true => exact P.pure rfl
    | false => exact ih

theorem firstFreeNumbered_twin (stem : String) (first limit : Nat) :
    P.rel Eq (firstFreeNumbered f stem first limit) (firstFreeNumbered g stem first limit) := by
  induction limit generalizing first with
  | zero => exact P.pure rfl
  | succ limit ih =>
    refine P.bind (hfg _) fun b _ hb => ?_
    subst hb
    cases b with
    | true => exact P.pure rfl
    | false => exact ih (first + 1)

theorem deriveName_twin (limit : Nat) (stem : String) (hms : Member.Twins L ms ns) :
    P.rel Eq (deriveName f limit stem ms) (deriveName g limit stem ns) := by
  rw [deriveName, deriveName, candidates_eq hms]
  refine P.bind (firstFree_twin P hfg _) fun x _ hx => ?_
  subst hx
  cases x with
  | some x => exact P.pure rfl
  | none => exact firstFreeNumbered_twin P hfg _ _ _

end

theorem derivedName_twin {f g : Ident → Resolve Bool} (hfg : ∀ x, (resolving L).rel Eq (f x) (g x))
    (limit : Nat) (stem : String) (hms : Member.Twins L ms ns) :
    (resolving L).rel Eq
      (do match ← deriveName f limit stem ms with
          | some x => return x
          | none => Resolve.exhausted)
      (do match ← deriveName g limit stem ns with
          | some x => return x
          | none => Resolve.exhausted) := by
  refine .bind (deriveName_twin (resolving L) hfg limit stem hms) fun x _ hx => ?_
  subst hx
  cases x with
  | some x => exact .pure rfl
  | none => exact resolving_throw _

section
variable (hL : L.Fair) {s s' : Scope} (hs : s.Twin L s')
include hL hs

theorem sameMeaning_twin (hc : c.Twin L c') (q : QIdent) :
    (resolving L).rel Eq (sameMeaning s c q) (sameMeaning s' c' q) := by
  refine .bind (Scope.lookup_twin hL hs q) fun _ _ hhere => ?_
  refine .bind (Scope.lookup_twin hL hc q) fun _ _ hthere => .pure ?_
  have hids : ∀ {fs gs : List Found}, List.Forall₂ (Found.Twin L) fs gs →
      List.Forall₂ L.id (fs.map (·.decl.id)) (gs.map (·.decl.id)) :=
    fun h => List.rel_map (fun _ _ hf => hf.decl.id) h
  rw [Bool.eq_iff_iff, beq_iff_eq, beq_iff_eq, hL.ids_iff (hids hhere) (hids hthere)]

theorem sameMeanings_twin (hc : c.Twin L c') (qs : List QIdent) :
    (resolving L).rel Eq (sameMeanings s c qs) (sameMeanings s' c' qs) := by
  induction qs with
  | nil => exact .pure rfl
  | cons q qs ih =>
    refine .bind (sameMeaning_twin hL hs hc q) fun b _ hb => ?_
    subst hb
    cases b with
    | true => exact ih
    | false => exact .pure rfl

theorem isVisible_twin (x : Ident) : (resolving L).rel Eq (isVisible s x) (isVisible s' x) :=
  .bind (Scope.lookup_twin hL hs [x]) fun _ _ h =>
    .pure (congrArg (!·) h.isEmpty_eq)

variable {p p' : PendingByScope} (hp : PendingByScope.Twin L p p')
include hp

theorem placeInterface_twin (names : List QIdent) (hi : List.Forall₂ (Scope.Twin L) is js)
    {os qs : List Scope} (ho : List.Forall₂ (Scope.Twin L) os qs) :
    (resolving L).rel (List.Forall₂ (Scope.Twin L)) (placeInterface p s names is os)
      (placeInterface p' s' names js qs) := by
  induction ho generalizing is js with
  | nil => exact .pure hi
  | cons hc _ ih =>
    have htaken : p.isTaken is = p'.isTaken js := funext (hp.isTaken_eq hL hi)
    rw [placeInterface, placeInterface, htaken]
    split
    · exact .pure hi
    refine .bind (sameMeanings_twin hL hs hc names) fun b _ hb => ?_
    subst hb
    cases b with
    | true => exact ih (hi.append (.cons hc .nil))
    | false => exact .pure hi

theorem reusable?_twin (hi : List.Forall₂ (Scope.Twin L) is js) (hc : c.Twin L c')
    (hps : TypeParam.Twins L ps qs) (hms : Member.Twins L ms ns) :
    (resolving L).rel (Option.Rel (InterfaceDecl.Twin L)) (reusable? p s is c ps ms)
      (reusable? p' s' js c' qs ns) := by
  have hfind := findEqual?_twin (hp.waiting hL hc) hps hms
  rw [reusable?, reusable?]
  generalize (p.waiting c).findEqual? ps ms = x at hfind ⊢
  generalize (p'.waiting c').findEqual? qs ns = y at hfind ⊢
  cases hfind with
  | none => exact .pure .none
  | some hx =>
    simp only [hx.name, hp.isTaken_eq hL hi]
    refine .bind (isVisible_twin hL hs _) fun b _ hb => ?_
    subst hb
    split
    · exact .pure .none
    · exact .pure (.some hx)

theorem newName_twin (stem : String) {ds : Comments} (hcs : L.hints cs ds)
    (hms : Member.Twins L ms ns) :
    (resolving L).rel Eq (newName stem p s cs ms) (newName stem p' s' ds ns) := by
  have hfree : ∀ x, (resolving L).rel Eq
      (do if p.isTaken s.containers x then return false
          return !(← isVisible s x))
      (do if p'.isTaken s'.containers x then return false
          return !(← isVisible s' x)) := by
    intro x
    rw [hp.isTaken_eq hL hs.containers]
    split
    · exact .pure rfl
    · exact .bind (isVisible_twin hL hs x) fun _ _ hb =>
        .pure (congrArg (!·) hb)
  have hlimit : total (fun e => e.2.length) p + s.reach + 1 =
      total (fun e => e.2.length) p' + s'.reach + 1 := by
    rw [total_eq_of_twin hp fun he => he.snd.length_eq, hs.reach_eq]
  rw [newName, newName, hlimit, hL.nameHint hcs]
  cases ds.nameHint? with
  | none => exact derivedName_twin hfree _ stem hms
  | some hint =>
    refine .bind (hfree hint) fun b _ hb => ?_
    subst hb
    cases b with
    | true => exact .pure rfl
    | false => exact derivedName_twin hfree _ hint hms

end

/-! ## The step -/

/-- Searches that go in step from twin sessions and twin lists of interfaces that wait. -/
def extracting (L : Leeway) : Pairing Extract Extract :=
  (resolving L).stateT (PendingByScope.Twin L)

/-- The placements are of twin interfaces in containers that correspond. -/
structure Placement.Twin (L : Leeway) (p q : Placement) : Prop where
  inner : List.Forall₂ (Scope.Twin L) p.inner q.inner
  container : p.container.Twin L q.container
  interface : p.interface.Twin L q.interface

section
variable (hL : L.Fair) {s s' : Scope} (hs : s.Twin L s')
include hL hs

theorem placeLiteral_twin (stem : String) {ds : Comments} (hcs : L.hints cs ds)
    (hms : Member.Twins L ms ns) (hps : TypeParam.Twins L ps qs) :
    (extracting L).rel (Placement.Twin L) (placeLiteral stem s cs ms ps)
      (placeLiteral stem s' ds ns qs) := by
  refine .bind (Pairing.get_rel _) fun p p' hp => ?_
  have hchain := placeInterface_twin hL hs hp (namesMentioned qs ns) (List.forall₂_take 1 hs.containers)
    (List.forall₂_drop 1 hs.containers)
  rw [namesMentioned_eq hps hms]
  refine .bind (Pairing.lift_rel _ hchain) fun chain chain' hchain => ?_
  have hinner : List.Forall₂ (Scope.Twin L) chain.dropLast chain'.dropLast := by
    rw [List.dropLast_eq_take, List.dropLast_eq_take, hchain.length_eq]
    exact List.forall₂_take _ hchain
  have hcont : (chain.getLast?.getD s).Twin L (chain'.getLast?.getD s') := hchain.getLast?.getD hs
  refine .bind (Pairing.lift_rel _ (reusable?_twin hL hs hp hinner hcont hps hms))
    fun _ _ hr => ?_
  cases hr with
  | some hi => exact .pure ⟨hinner, hcont, hi⟩
  | none =>
    refine .bind (Pairing.lift_rel _ (newName_twin hL hs hp stem hcs hms)) fun x _ hx => ?_
    subst hx
    have hi : InterfaceDecl.Twin L
        ⟨{ comments := cs }, true, x, ps, [], ms, (chain.getLast?.getD s).codePath.add x⟩
        ⟨{ comments := ds }, true, x, qs, [], ns, (chain'.getLast?.getD s').codePath.add x⟩ :=
      ⟨hL.new (hL.comments_of_hints hcs), rfl, rfl, hps, .nil, hms, by rw [hcont.codePath_eq]⟩
    exact .bind (Pairing.set_rel _ (hp.add hL hcont hi)) fun _ _ _ =>
      .pure ⟨hinner, hcont, hi⟩

theorem extractInterface_twin (stem : String) (h : t.Twin L u) :
    (extracting L).rel (Option.Rel (Ty.Twin L)) (extractInterface stem s t)
      (extractInterface stem s' u) := by
  have hps := hs.paramsOf h
  have hplc : (extracting L).rel (Option.Rel (Placement.Twin L)) (placement? stem s t)
      (placement? stem s' u) := by
    cases h with
    | object hi hms =>
      simp only [placement?, hms.isEmpty_eq, Member.isDictionary_eq hms, Member.isTypeMapping_eq hms,
        hs.isExtractable_eq, hs.containers.isEmpty_eq]
      split
      · exact .pure .none
      · exact .bind (placeLiteral_twin hL hs stem hi.hints hms hps) fun _ _ hp =>
          .pure (.some hp)
    | _ => exact .pure .none
  refine .bind hplc fun _ _ hp => .pure (hp.map fun hp => ?_)
  rw [Placement.reference, Placement.reference, hp.interface.name]
  exact .ref hL.fresh (List.rel_map (fun _ _ hp => hp.asTy hL) hps)

theorem emitInterfaces_twin {ds es : List Decl} (h : Decl.Twins L ds es) :
    (extracting L).rel (Option.Rel (Decl.Twins L)) (emitInterfaces s ds)
      (emitInterfaces s' es) := by
  refine .bind (Pairing.get_rel _) fun p p' hp => ?_
  have hlook := lookup_twin (ScopeKey.Twin.beq_eq hL) hp (hs.key hL)
  generalize p.lookup s.key = x at hlook ⊢
  generalize p'.lookup s'.key = y at hlook ⊢
  cases hlook with
  | none => exact .pure .none
  | some hw =>
    have hrest : PendingByScope.Twin L (p.filter fun e => !(e.1 == s.key))
        (p'.filter fun e => !(e.1 == s'.key)) :=
      List.Forall₂.filter hp fun he => congrArg (!·) (he.fst.beq_eq hL (hs.key hL))
    exact .bind (Pairing.set_rel _ hrest) fun _ _ _ =>
      .pure (.some (h.append (List.rel_map (fun _ _ hi => .iface hi) hw)))

theorem extractInterfaces_twin (stem : String) {f g : File} (h : f.Twin L g) :
    (resolving L).rel (Edited.Twin True (File.Twin L)) (extractInterfaces stem s f)
      (extractInterfaces stem s' g) := by
  have hk : Hooks.Twin (extracting L) L True (Scope.Twin L) (interfaceHooks stem)
      (interfaceHooks stem) :=
    { idle := {}
      idle' := {}
      within := fun hs hxy => hs.enter hxy
      enterFile := fun _ _ => .pure rfl
      enterDecl := fun _ _ => .pure rfl
      newMembers := fun _ _ hs hds => (extracting L).mono (emitInterfaces_twin hL hs hds)
        fun h => .of_rel hds h
      newClassMembers := fun _ _ _ hxs => .pure (.of_rel hxs .none)
      leaveDecl := fun _ hx => .pure (.of_rel hx .none)
      leaveTy := fun hs ht => (extracting L).mono (extractInterface_twin hL hs stem ht)
        fun h => .of_rel ht h }
  exact .bind (walkFile_twin hk hs h [] [] .nil) fun _ _ he => .pure he.fst

end

end

end Ambient
