import Ambient.Proofs.Normal
import Ambient.Proofs.Rewritten
import Ambient.Proofs.Variables

/-!
# Callable values written out

A value that can only be called is written out as methods or functions, one for each of its signatures and in
its place. The parts of a node are done first, so an object type is a function type by the time the property
or variable of that type is looked at.

* `WrittenOut`: what a property or variable that can only be called is replaced by.
* `normalizeFunctions_rewritten`: what becomes of a file, member list by member list.
* `Node.Rewritten.uncallable`: nothing is left to write out, so a second run gives the file back
  (`normalizeFunctions_conserves`).
* `normalizeFunctions_callable_iff`: a declaration that is exported where it stands is no member of a container
  and is not looked at, so variables that can only be called are left there, and nowhere else.
-/

namespace Ambient

/-! ## What callable values stand for -/

/-- The member is a property without an initialiser that can only be called. -/
inductive Member.CalledBy : Member → List Signature → Prop
  | property {p : Property} {t : Ty} {sigs : List Signature} (hexpr : p.expr = none) (ht : p.tpe = some t)
    (h : t.CalledBy sigs) : CalledBy (.property p) sigs

/-- The declaration is a variable without an initialiser that can only be called. -/
inductive Decl.CalledBy : Decl → List Signature → Prop
  | var {v : VarDecl} {t : Ty} {sigs : List Signature} (hexpr : v.expr = none) (ht : v.tpe = some t)
    (h : t.CalledBy sigs) : CalledBy (.var v) sigs

/-- The comments of the copy of that number, of several that are made of one node: texts are kept once. -/
def Comments.ofCopy (cs : Comments) (k : Nat) : Comments :=
  if k = 0 then cs else cs.markersOnly

/-- The method for a signature of a callable property, the `k`-th of them. -/
def Member.methodFor (m : Member) (k : Nat) (s : Signature) : Member :=
  match m with
  | .property p =>
    let comments :=
      match p.tpe with
      | some (.object _ _) => p.info.comments.withMarker .expandedCallables
      | _ => p.info.comments
    .function ⟨{ comments := comments.ofCopy k }, p.level, p.name, .normal, s, p.isStatic, false⟩
  | m => m

/-- The function for a signature of a callable variable, the `k`-th of them. -/
def Decl.functionFor (d : Decl) (k : Nat) (s : Signature) : Decl :=
  match d with
  | .var v =>
    .function ⟨{ comments := v.info.comments.ofCopy k }, v.declared, v.name, s, v.jsLocation, v.codePath⟩
  | d => d

/-- What an element stands for: what is made for each of its signatures, in their order, or itself if it has
none. -/
inductive WrittenOut {α : Type} (called : α → List Signature → Prop) (make : α → Nat → Signature → α) :
    α → List α → Prop
  | signatures {a : α} {sigs : List Signature} (h : called a sigs) :
    WrittenOut called make a (sigs.mapIdx (make a))
  | itself {a : α} (h : ∀ sigs, ¬ called a sigs) : WrittenOut called make a [a]

/-- The signature of a call signature that stands alone. It has comments of its own or takes over those
around it. -/
def CallMember.alone (c : CallMember) (around : Comments) : Signature :=
  let comments :=
    if c.sig.info.comments.isEmpty then around ++ c.info.comments else c.sig.info.comments
  { c.sig with info := c.sig.info.withComments comments }

/-- What becomes of a type when its parts are done. -/
inductive Ty.Collapses : Ty → Ty → Prop
  | function {i : NodeInfo} {c : CallMember} (hlevel : c.level = .default) :
    Collapses (.object i [.call c]) (.function (c.alone i.comments))
  | itself {t : Ty} (h : ∀ {i c}, t = .object i [.call c] → c.level ≠ .default) : Collapses t t

/-- How callable values are written out. -/
def callables : Rewriting Unit where
  within _ _ := ()
  decls _ := InBlocks (WrittenOut Decl.CalledBy Decl.functionFor)
  members _ := InBlocks (WrittenOut Member.CalledBy Member.methodFor)
  ty _ := Ty.Collapses

/-! ## What the hooks do -/

variable {d : Decl} {block ms : List Member} {m m' : Member} {n' : Node} {t t' : Ty} {α : Type}
  {c : Unit}

theorem expandEach_inBlocks {R : α → List α → Prop} {expand : α → Option (List α)}
    (h : ∀ a, R a ((expand a).getD [a])) (as : List α) : InBlocks R as ((expandEach expand as).getD as) := by
  have hall : InBlocks R as (as.flatMap fun a => (expand a).getD [a]) := by
    induction as with
    | nil => exact .nil
    | cons a as ih => exact .cons (h a) ih
  unfold expandEach
  split
  · exact hall
  · rename_i hany
    have hkeep : (as.flatMap fun a => (expand a).getD [a]) = as.flatMap fun a => [a] := by
      refine List.flatMap_congr fun a ha => ?_
      have hnone : expand a = none := by simpa using fun hsome => hany (List.any_eq_true.2 ⟨a, ha, hsome⟩)
      rw [hnone]
      rfl
    rw [hkeep, List.flatMap_singleton'] at hall
    exact hall

theorem keepFirstOnly_map {β : Type} (strip : β → β) (make : α → β) (as : List α) :
    keepFirstOnly strip (as.map make) =
      as.mapIdx fun k a => if k = 0 then make a else strip (make a) := by
  cases as with
  | nil => rfl
  | cons a as =>
    rw [List.map_cons, keepFirstOnly, List.mapIdx_cons]
    congr 1
    apply List.ext_getElem <;> simp

theorem Member.toMethods?_writtenOut (m : Member) :
    WrittenOut CalledBy methodFor m (m.toMethods?.getD [m]) := by
  cases hm : m.toMethods? with
  | none =>
    refine .itself fun sigs h => ?_
    cases h with
    | property hexpr ht h =>
      simp [toMethods?, Property.toMethods?, hexpr, ht, Ty.callSignatures?_eq_some.2 h] at hm
  | some ms =>
    cases m with
    | property p =>
      simp only [toMethods?, Property.toMethods?] at hm
      split at hm
      · cases hm
      · rename_i hexpr
        obtain ⟨t, ht, hm⟩ := Option.bind_eq_some_iff.1 hm
        obtain ⟨sigs, hsigs, hm⟩ := Option.bind_eq_some_iff.1 hm
        cases hm
        have hsignatures := @WrittenOut.signatures _ CalledBy methodFor _ _
          (.property (by simpa using hexpr) ht (Ty.callSignatures?_eq_some.1 hsigs))
        rw [Option.getD_some, keepFirstOnly_map]
        convert hsignatures using 2
        funext k s
        simp only [methodFor, ht, Comments.ofCopy]
        cases t <;> split <;> rfl
    | _ => cases hm

theorem Decl.toFunctions?_writtenOut (d : Decl) :
    WrittenOut CalledBy functionFor d (d.toFunctions?.getD [d]) := by
  cases hd : d.toFunctions? with
  | none =>
    refine .itself fun sigs h => ?_
    cases h with
    | var hexpr ht h =>
      simp [toFunctions?, VarDecl.toFunctions?, hexpr, ht, Ty.callSignatures?_eq_some.2 h] at hd
  | some ds =>
    cases d with
    | var v =>
      simp only [toFunctions?, VarDecl.toFunctions?] at hd
      split at hd
      · cases hd
      · rename_i hexpr
        obtain ⟨t, ht, hd⟩ := Option.bind_eq_some_iff.1 hd
        obtain ⟨sigs, hsigs, hd⟩ := Option.bind_eq_some_iff.1 hd
        cases hd
        have hsignatures := @WrittenOut.signatures _ CalledBy functionFor _ _
          (.var (by simpa using hexpr) ht (Ty.callSignatures?_eq_some.1 hsigs))
        rw [Option.getD_some, keepFirstOnly_map]
        convert hsignatures using 2
        funext k s
        simp only [functionFor, Comments.ofCopy]
        split <;> rfl
    | _ => cases hd

theorem Ty.toFunctionType?_collapses (t : Ty) : t.Collapses (t.toFunctionType?.getD t) := by
  unfold toFunctionType?
  split
  · rename_i i c
    split
    · rename_i hlevel
      have halone : (if c.sig.info.comments.isEmpty then
          { c.sig with info := c.sig.info.withComments (i.comments ++ c.info.comments) }
        else c.sig) = c.alone i.comments := by
        obtain ⟨_, _, _, _, _, _⟩ := c
        unfold CallMember.alone
        split <;> rfl
      rw [Option.getD_some, halone]
      exact .function hlevel
    · rename_i hlevel
      refine .itself fun h => ?_
      cases h
      exact hlevel
  · rename_i hnot
    exact .itself fun h => absurd h (hnot _ _)

theorem callableHooks_acts : callableHooks.Acts computing (fun _ _ => True) callables where
  idle := {}
  within := rfl
  child _ _ := trivial
  enterFile := rfl
  enterDecl := rfl
  leaveDecl := rfl
  newMembers _ _ _ _ _ := expandEach_inBlocks Decl.toFunctions?_writtenOut _
  newClassMembers _ _ := expandEach_inBlocks Member.toMethods?_writtenOut _
  leaveTy {_ _ _ t'} _ _ := t'.toFunctionType?_collapses

/-- **What becomes of a file whose callable values are written out.** -/
theorem normalizeFunctions_rewritten (f : File) :
    (Node.file f).Rewritten callables () (.file (normalizeFunctions f).value) :=
  walkFile_rewritten callableHooks_acts f trivial ()

/-! ## Nothing is left to write out -/

theorem Node.Throughout.contains {P : Node → Prop} {f : File} (h : (Node.file f).Throughout P) {n : Node}
    (hn : f.Contains n) : n.Throughout P := by
  induction hn with
  | file => exact h
  | child _ hm ih => exact ih.inside hm

theorem Ty.CalledBy.throughout {P : Node → Prop} {sigs : List Signature} (h : t.CalledBy sigs)
    (ht : (Node.ty t).Throughout P) : ∀ s ∈ sigs, (Node.sig s).Throughout P := by
  intro s hs
  cases h with
  | function s' =>
    obtain rfl := List.mem_singleton.1 hs
    exact ht.inside (.head _)
  | object _ h =>
    obtain ⟨m, hm, c, rfl, -, rfl⟩ := exists_of_forall₂ h.flip hs
    exact (ht.inside (List.mem_map_of_mem hm)).inside (.head _)

section
variable {n : Node}

theorem Node.uncallable_of_plain (hty : ∀ t, n ≠ .ty t) (hmems : n.members? = none)
    (hclass : n.classMembers? = none) : n.Uncallable where
  call h := absurd h (hty _)
  property h := by
    rw [hclass] at h
    cases h
  var h := by
    rw [hmems] at h
    cases h

theorem Node.throughout_sig {s : Signature} (h : (Node.sig s).Throughout Node.Uncallable) (i : NodeInfo) :
    (Node.sig { s with info := i }).Throughout Node.Uncallable :=
  .mk (Node.uncallable_of_plain (fun _ h => by cases h) rfl rfl) fun _ hm => h.inside hm

/-- What stands in the place of an element is written out, if the element is inside. What is made for a
signature holds nothing but the signature. -/
theorem WrittenOut.throughout {called : α → List Signature → Prop} {make : α → Nat → Signature → α}
    {node : α → Node} (hsigs : ∀ {a sigs}, called a sigs → (node a).Throughout Node.Uncallable →
      ∀ s ∈ sigs, (Node.sig s).Throughout Node.Uncallable)
    (hmake : ∀ {a sigs}, called a sigs → ∀ k s, (node (make a k s)).children = [.sig s] ∧
      (node (make a k s)).Uncallable ∧ ∀ sigs, ¬ called (make a k s) sigs) {a b : α} {block : List α}
    (h : WrittenOut called make a block) (ha : (node a).Throughout Node.Uncallable) (hb : b ∈ block) :
    (node b).Throughout Node.Uncallable ∧ ∀ sigs, ¬ called b sigs := by
  cases h with
  | itself h =>
    obtain rfl := List.mem_singleton.1 hb
    exact ⟨ha, h⟩
  | signatures h =>
    obtain ⟨k, hk, rfl⟩ := List.mem_mapIdx.1 hb
    obtain ⟨hch, hhere, hnot⟩ := hmake h k _
    refine ⟨.mk hhere fun m hm => ?_, hnot⟩
    rw [hch, List.mem_singleton] at hm
    subst hm
    exact hsigs h ha _ (List.getElem_mem hk)

theorem Decl.writtenOut_throughout {d' : Decl} {block : List Decl}
    (h : WrittenOut CalledBy functionFor d block) (hd : (Node.decl d).Throughout Node.Uncallable)
    (hd' : d' ∈ block) : (Node.decl d').Throughout Node.Uncallable ∧ ∀ sigs, ¬ d'.CalledBy sigs := by
  refine h.throughout (fun h hd => ?_) (fun h k s => ?_) hd hd'
  · cases h with
    | var _ ht h => exact h.throughout (hd.inside (by simp [Node.children, Node.childrenOfDecl, ht]))
  · cases h with
    | var =>
      refine ⟨rfl, Node.uncallable_of_plain (fun _ h => ?_) rfl rfl, fun _ h => ?_⟩ <;> cases h

theorem Member.writtenOut_throughout (h : WrittenOut CalledBy methodFor m block)
    (hm : (Node.member m).Throughout Node.Uncallable) (hm' : m' ∈ block) :
    (Node.member m').Throughout Node.Uncallable ∧ ∀ sigs, ¬ m'.CalledBy sigs := by
  refine h.throughout (fun h hm => ?_) (fun h k s => ?_) hm hm'
  · cases h with
    | property _ ht h => exact h.throughout (hm.inside (by simp [Node.children, Node.childrenOfMember, ht]))
  · cases h with
    | property =>
      refine ⟨rfl, Node.uncallable_of_plain (fun _ h => ?_) rfl rfl, fun _ h => ?_⟩ <;> cases h

theorem Node.throughout_of_members {ds : List Decl} (hds : n.members? = some ds)
    (h : ∀ d ∈ ds, (Node.decl d).Throughout Node.Uncallable ∧ ∀ sigs, ¬ d.CalledBy sigs) :
    n.Throughout Node.Uncallable := by
  refine .mk ⟨fun hcall => ?_, fun hms => ?_, fun hds' hv hexpr ht hcallable => ?_⟩ fun m hm => ?_
  · rw [hcall] at hds
    cases hds
  · rw [Node.members?_of_classMembers? hms] at hds
    cases hds
  · cases hds.symm.trans hds'
    obtain ⟨sigs, hsigs⟩ := Ty.callable_iff.1 hcallable
    exact (h _ hv).2 sigs (.var hexpr ht hsigs)
  · rw [Node.children_of_members? hds] at hm
    obtain ⟨d, hd, rfl⟩ := List.mem_map.1 hm
    exact (h d hd).1

theorem Node.throughout_of_classMembers (hms : n.classMembers? = some ms)
    (hcall : ∀ {i c}, n = .ty (.object i [.call c]) → c.level ≠ .default)
    (h : ∀ m ∈ ms, ∀ sigs, ¬ m.CalledBy sigs) (hin : ∀ m ∈ n.children, m.Throughout Node.Uncallable) :
    n.Throughout Node.Uncallable := by
  refine .mk ⟨hcall, fun hms' hp hexpr ht hcallable => ?_, fun hds => ?_⟩ hin
  · cases hms.symm.trans hms'
    obtain ⟨sigs, hsigs⟩ := Ty.callable_iff.1 hcallable
    exact h _ hp sigs (.property hexpr ht hsigs)
  · rw [Node.members?_of_classMembers? hms] at hds
    cases hds

theorem Ty.Collapses.throughout (h : t.Collapses t')
    (ht : ∀ m ∈ (Node.ty t).children, m.Throughout Node.Uncallable)
    (hms : ∀ ms, (Node.ty t).classMembers? = some ms → ∀ m ∈ ms, ∀ sigs, ¬ m.CalledBy sigs) :
    (Node.ty t').Throughout Node.Uncallable := by
  cases h with
  | @function i c hlevel =>
    have hsig : (Node.sig c.sig).Throughout Node.Uncallable := (ht _ (.head _)).inside (.head _)
    refine .mk ⟨fun h => ?_, fun h => ?_, fun h => ?_⟩ fun m hm => ?_
    · cases h
    · cases h
    · cases h
    · obtain rfl := List.mem_singleton.1 hm
      exact Node.throughout_sig hsig _
  | itself h =>
    cases hclass : (Node.ty t).classMembers? with
    | none =>
      refine .mk ⟨fun hcall => h (Node.ty.inj hcall), fun hms' => ?_, fun hds => ?_⟩ ht
      · cases hclass.symm.trans hms'
      · cases hds
    | some ms =>
      exact Node.throughout_of_classMembers hclass (fun hcall => h (Node.ty.inj hcall)) (hms ms hclass) ht

/-- **Nothing is left to write out** in what becomes of a node. By induction on the parts of the node. -/
theorem Node.Rewritten.uncallable (h : n.Rewritten callables c n') : n'.Throughout Node.Uncallable := by
  induction h with
  | container hds hlen _ hnew hn' ih =>
    have hparts := forall_mem_of_getElem? hlen ih
    refine Node.throughout_of_members (Node.members?_of_withMembers? hn') fun d hd => ?_
    obtain ⟨d₁, hd₁, block, hblock, hmem⟩ := hnew.exists_of_mem hd
    exact Decl.writtenOut_throughout hblock (hparts d₁ hd₁) hmem
  | @rebuilt c n n₁ n₂ n' hn halike hlen _ hmems hleft ih =>
    have hparts := forall_mem_of_getElem? hlen ih
    have hin : (∀ m ∈ n₂.children, m.Throughout Node.Uncallable) ∧
        ∀ ms, n₂.classMembers? = some ms → ∀ m ∈ ms, ∀ sigs, ¬ m.CalledBy sigs := by
      cases hmems with
      | other hclass =>
        refine ⟨hparts, fun ms hms => ?_⟩
        rw [hclass] at hms
        cases hms
      | @members _ ms ms' hms hnew hn₂ =>
        obtain ⟨others, hch, hch₂⟩ := Node.children_of_withClassMembers? hms hn₂
        have hdone : ∀ m ∈ ms', (Node.member m).Throughout Node.Uncallable ∧ ∀ sigs, ¬ m.CalledBy sigs := by
          intro m hm
          obtain ⟨m₁, hm₁, block, hblock, hmem⟩ := hnew.exists_of_mem hm
          refine Member.writtenOut_throughout hblock (hparts _ ?_) hmem
          rw [hch]
          exact List.mem_append_right _ (List.mem_map_of_mem hm₁)
        refine ⟨fun m hm => ?_, fun ms hms₂ m hm => ?_⟩
        · rw [hch₂] at hm
          rcases List.mem_append.1 hm with hm | hm
          · exact hparts m (by rw [hch]; exact List.mem_append_left _ hm)
          · obtain ⟨m', hm', rfl⟩ := List.mem_map.1 hm
            exact (hdone m' hm').1
        · cases (Node.classMembers?_of_withClassMembers? hn₂).symm.trans hms₂
          exact (hdone m hm).2
    cases hleft with
    | ty h => exact h.throughout hin.1 hin.2
    | other hty =>
      cases hclass : n₂.classMembers? with
      | some ms =>
        exact Node.throughout_of_classMembers hclass (fun h => absurd h (hty _)) (hin.2 ms hclass)
          hin.1
      | none =>
        have hdecls := hmems.members?_eq_none (halike.members?_eq.trans hn)
        exact .mk (Node.uncallable_of_plain hty hdecls hclass) hin.1

end

/-- **Callable values are written out in place, once and for all.** A second run gives back the file that the
first one gives. In that file each list of members and each list of declarations is the given one with its
elements rewritten, in their order. A property or variable without an initialiser whose rewritten type can only
be called is replaced, where it stands, by one method or function for each signature of the type. These are in
the order of the signatures and have its name, level, place and location. -/
theorem normalizeFunctions_conserves (f : File) :
    normalizeFunctions (normalizeFunctions f).value = .keep (normalizeFunctions f).value ∧
      (Node.file f).Rewritten callables () (.file (normalizeFunctions f).value) := by
  have hrewritten := normalizeFunctions_rewritten f
  have huncallable := hrewritten.uncallable
  exact ⟨normalizeFunctions_eq_keep fun hn => (huncallable.contains hn).here, hrewritten⟩

/-! ## Exported variables -/

/-- The variable has no initialiser and can only be called. -/
def VarDecl.Callable (v : VarDecl) : Prop :=
  v.expr = none ∧ ∃ t, v.tpe = some t ∧ t.Callable

def Member.IsCall (m : Member) : Prop :=
  ∃ c, m = .call c ∧ c.level = .default

theorem Member.isCall_iff_of_alike (h : (Node.member m).Alike (.member m')) : m'.IsCall ↔ m.IsCall := by
  cases h <;> simp [IsCall]

theorem Member.isCall_iff (h : (Node.member m).Rewritten callables c (.member m')) :
    m'.IsCall ↔ m.IsCall :=
  Member.isCall_iff_of_alike (h.plain rfl rfl fun _ h => by cases h).1

def Member.AllCalls (ms : List Member) : Prop :=
  ms ≠ [] ∧ ∀ m ∈ ms, m.IsCall

theorem Member.isCall_of_writtenOut (h : WrittenOut CalledBy methodFor m block) (hm' : m' ∈ block)
    (hcall : m'.IsCall) : m = m' := by
  cases h with
  | itself => exact (List.mem_singleton.1 hm').symm
  | signatures h =>
    obtain ⟨k, hk, rfl⟩ := List.mem_mapIdx.1 hm'
    obtain ⟨c, hc, -⟩ := hcall
    cases h
    cases hc

theorem Member.IsCall.writtenOut (hm : m.IsCall) (h : WrittenOut CalledBy methodFor m block) :
    block = [m] := by
  cases h with
  | itself => rfl
  | signatures h =>
    obtain ⟨c, rfl, -⟩ := hm
    cases h

theorem WrittenOut.ne_nil (h : WrittenOut Member.CalledBy Member.methodFor m block) : block ≠ [] := by
  cases h with
  | itself => exact List.cons_ne_nil _ _
  | signatures h =>
    cases h with
    | property _ _ h =>
      cases h with
      | function => exact List.cons_ne_nil _ _
      | object hne h =>
        intro hnil
        rw [List.mapIdx_eq_nil_iff] at hnil
        subst hnil
        cases h
        exact hne rfl

theorem Member.allCalls_iff {ms' : List Member} (h : InBlocks (WrittenOut CalledBy methodFor) ms ms') :
    AllCalls ms' ↔ AllCalls ms := by
  constructor
  · rintro ⟨hne, hall⟩
    refine ⟨fun hnil => ?_, fun m hm => ?_⟩
    · subst hnil
      cases h
      exact hne rfl
    · obtain ⟨block, hblock, hsub⟩ := h.exists_block hm
      obtain ⟨m', hm'⟩ := List.exists_mem_of_ne_nil block hblock.ne_nil
      have hcall := hall m' (hsub hm')
      rw [Member.isCall_of_writtenOut hblock hm' hcall]
      exact hcall
  · rintro ⟨hne, hall⟩
    refine ⟨fun hnil => ?_, fun m' hm' => ?_⟩
    · obtain ⟨m, hm⟩ := List.exists_mem_of_ne_nil ms hne
      obtain ⟨block, hblock, hsub⟩ := h.exists_block hm
      rw [(hall m hm).writtenOut hblock, hnil] at hsub
      cases hsub (.head _)
    · obtain ⟨m, hm, block, hblock, hmem⟩ := h.exists_of_mem hm'
      rw [(hall m hm).writtenOut hblock, List.mem_singleton] at hmem
      rw [hmem]
      exact hall m hm

theorem Ty.callable_object_iff {i : NodeInfo} : (Ty.object i ms).Callable ↔ Member.AllCalls ms := by
  constructor
  · intro h
    cases h with
    | object hne h => exact ⟨hne, h⟩
  · rintro ⟨hne, h⟩
    exact .object hne h

theorem Ty.Collapses.callable_iff (h : t.Collapses t') : t'.Callable ↔ t.Callable := by
  cases h with
  | itself => rfl
  | @function i c hlevel =>
    refine iff_of_true (.function _) (.object (List.cons_ne_nil _ _) fun m hm => ?_)
    exact ⟨c, List.mem_singleton.1 hm, hlevel⟩

theorem Member.allCalls_iff_of_getElem? {ms' : List Member} (hlen : ms'.length = ms.length)
    (h : ∀ (i : Nat) (m m' : Member), ms[i]? = some m → ms'[i]? = some m' → (m'.IsCall ↔ m.IsCall)) :
    AllCalls ms' ↔ AllCalls ms := by
  have hne : ms' ≠ [] ↔ ms ≠ [] := by
    rw [← List.length_pos_iff, ← List.length_pos_iff, hlen]
  refine and_congr hne ⟨fun hall => ?_, fun hall => ?_⟩
  · exact forall_mem_of_getElem? hlen.symm fun i m' m hm' hm =>
      (h i m m' hm hm').1 (hall m' (List.mem_of_getElem? hm'))
  · exact forall_mem_of_getElem? hlen fun i m m' hm hm' =>
      (h i m m' hm hm').2 (hall m (List.mem_of_getElem? hm))

/-- The node is a type that can only be called. -/
def Node.IsCallable (n : Node) : Prop :=
  ∃ t, n = .ty t ∧ t.Callable

theorem Node.isCallable_ty : (Node.ty t).IsCallable ↔ t.Callable := by
  simp [IsCallable]

theorem Node.Alike.isCallable_iff {n : Node} (h : n.Alike n')
    (hlen : n'.children.length = n.children.length)
    (hparts : ∀ (i : Nat) (m m' : Node), n.children[i]? = some m → n'.children[i]? = some m' →
      m.Rewritten callables () m') : n'.IsCallable ↔ n.IsCallable := by
  cases h with
  | leaf => rfl
  | funTy => exact iff_of_true ⟨_, rfl, .function _⟩ ⟨_, rfl, .function _⟩
  | object i ms ms' =>
    simp only [Node.isCallable_ty, Ty.callable_object_iff]
    have hlen : ms'.length = ms.length := by simpa [Node.children, Node.childrenOfTy] using hlen
    refine Member.allCalls_iff_of_getElem? hlen fun k m m' hm hm' => ?_
    exact Member.isCall_iff (hparts k (.member m) (.member m') (by simp [Node.children, Node.childrenOfTy, hm])
      (by simp [Node.children, Node.childrenOfTy, hm']))
  | _ =>
    refine iff_of_false ?_ ?_ <;>
    · rintro ⟨t, ht, h⟩
      cases ht <;> cases h

theorem Node.Refitted.isCallable_iff {n : Node}
    (h : n.Refitted (InBlocks (WrittenOut Member.CalledBy Member.methodFor)) n') :
    n'.IsCallable ↔ n.IsCallable := by
  cases h with
  | other => rfl
  | @members _ ms ms' hms hnew hn' =>
    cases n with
    | ty t =>
      cases t <;> cases hms
      cases hn'
      simp only [Node.isCallable_ty, Ty.callable_object_iff]
      exact Member.allCalls_iff hnew
    | decl d =>
      refine iff_of_false ?_ ?_
      · rintro ⟨t, rfl, -⟩
        exact Node.withClassMembers?_ne_ty hn' (fun _ h => by cases h) t rfl
      · rintro ⟨t, ht, -⟩
        cases ht
    | _ => cases hms

/-- **A type can only be called just if what becomes of it can.** -/
theorem Ty.callable_rewritten (h : (Node.ty t).Rewritten callables c (.ty t')) :
    t'.Callable ↔ t.Callable := by
  cases h with
  | container hds => cases hds
  | rebuilt _ halike hlen h hmems hleft =>
    have hbef := hmems.isCallable_iff.trans (halike.isCallable_iff hlen h)
    rw [Node.isCallable_ty] at hbef
    cases hleft with
    | ty hleft => exact hleft.callable_iff.trans (Node.isCallable_ty.symm.trans hbef)
    | other hty => exact absurd rfl (hty t')

theorem VarDecl.callable_iff {v v' : VarDecl}
    (h : (Node.decl (.var v)).Rewritten callables c (.decl (.var v'))) : v'.Callable ↔ v.Callable := by
  obtain ⟨halike, -, hparts⟩ := h.plain rfl rfl fun _ h => by cases h
  cases halike with
  | leaf => rfl
  | var _ t e ht he =>
    have hexpr : e = none ↔ v.expr = none := by
      rw [← Option.map_eq_none_iff, he, Option.map_eq_none_iff]
    refine and_congr hexpr ?_
    cases t with
    | none =>
      have hnone : v.tpe = none := by simpa using ht.symm
      simp [hnone]
    | some t =>
      obtain ⟨t₀, ht₀⟩ := Option.isSome_iff_exists.1 ht.symm
      have hty : (Node.ty t₀).Rewritten callables () (.ty t) :=
        hparts 0 _ _ (by simp [Node.children, Node.childrenOfDecl, ht₀])
          (by simp [Node.children, Node.childrenOfDecl])
      simp [ht₀, Ty.callable_rewritten hty]

section
variable {f g : File}

theorem Decl.writtenOut_eq_or {block : List Decl} (h : WrittenOut CalledBy functionFor d block) :
    block = [d] ∨ ∃ v, d = .var v := by
  cases h with
  | itself => exact .inl rfl
  | signatures h =>
    cases h
    exact .inr ⟨_, rfl⟩

theorem Decl.of_writtenOut {d' : Decl} {block : List Decl} (h : WrittenOut CalledBy functionFor d block)
    (hd' : d' ∈ block) : d' = d ∨ ∃ fn, d' = .function fn := by
  cases h with
  | itself => exact .inl (List.mem_singleton.1 hd')
  | signatures h =>
    obtain ⟨k, hk, rfl⟩ := List.mem_mapIdx.1 hd'
    cases h
    exact .inr ⟨_, rfl⟩

/-- Every declaration is still there, unless it is a variable. By induction on the way down to it. -/
theorem File.Contains.exists_rewritten (h : (Node.file f).Rewritten callables () (.file g)) {n : Node}
    (hn : f.Contains n) (hpart : n.isPart = false) :
    ∃ n', n.Rewritten callables () n' ∧ (g.Contains n' ∨ ∃ v, n' = .decl (.var v)) := by
  induction hn with
  | file => exact ⟨_, h, .inl .file⟩
  | @child n m _ hm ih =>
    obtain ⟨hnpart, d, rfl⟩ := Node.decl_of_mem_children hm hpart
    obtain ⟨n', hn', hin⟩ := ih hnpart
    rcases Node.decl_mem_children hm with ⟨ds, hds, hd⟩ | ⟨x, rfl⟩
    · obtain ⟨ds₁, ds₂, hlen, hparts, hnew, hn₂⟩ := hn'.members hds
      have hds₂ := Node.members?_of_withMembers? hn₂
      obtain ⟨i, hi, rfl⟩ := List.mem_iff_getElem.1 hd
      have hi₁ : i < ds₁.length := hlen ▸ hi
      have hd₁ := hparts i _ _ (List.getElem?_eq_getElem hi) (List.getElem?_eq_getElem hi₁)
      refine ⟨.decl ds₁[i], hd₁, ?_⟩
      obtain ⟨block, hblock, hsub⟩ := hnew.exists_block (List.getElem_mem hi₁)
      rcases Decl.writtenOut_eq_or hblock with rfl | ⟨v, hv⟩
      · rcases hin with hin | ⟨v, rfl⟩
        · refine .inl (hin.child ?_)
          rw [Node.children_of_members? hds₂]
          exact List.mem_map_of_mem (hsub (.head _))
        · cases hds₂
      · exact .inr ⟨v, by rw [hv]⟩
    · obtain ⟨d', rfl, hd'⟩ := hn'.exportee
      refine ⟨_, hd', ?_⟩
      rcases hin with hin | ⟨v, hv⟩
      · exact .inl (hin.child (.head _))
      · cases hv

/-- Every declaration was there before, unless it is a function. By induction on the way down to it. -/
theorem File.Contains.exists_of_rewritten (h : (Node.file f).Rewritten callables () (.file g))
    (hn' : g.Contains n') (hpart : n'.isPart = false) :
    (∃ n, n.Rewritten callables () n' ∧ f.Contains n) ∨ ∃ fn, n' = .decl (.function fn) := by
  induction hn' with
  | file => exact .inl ⟨_, h, .file⟩
  | @child n' m' _ hm' ih =>
    obtain ⟨hnpart, d', rfl⟩ := Node.decl_of_mem_children hm' hpart
    rcases ih hnpart with ⟨n, hn, hin⟩ | ⟨fn, rfl⟩
    · rcases Node.decl_mem_children hm' with ⟨ds', hds', hd'⟩ | ⟨x, rfl⟩
      · cases hds : n.members? with
        | none => cases hds'.symm.trans (hn.members?_eq_none hds)
        | some ds =>
          obtain ⟨ds₁, ds₂, hlen, hparts, hnew, hn₂⟩ := hn.members hds
          cases (Node.members?_of_withMembers? hn₂).symm.trans hds'
          obtain ⟨d₁, hd₁, block, hblock, hmem⟩ := hnew.exists_of_mem hd'
          rcases Decl.of_writtenOut hblock hmem with rfl | ⟨fn, rfl⟩
          · obtain ⟨i, hi₁, rfl⟩ := List.mem_iff_getElem.1 hd₁
            have hi : i < ds.length := hlen ▸ hi₁
            refine .inl ⟨_, hparts i _ _ (List.getElem?_eq_getElem hi) (List.getElem?_eq_getElem hi₁), ?_⟩
            refine hin.child ?_
            rw [Node.children_of_members? hds]
            exact List.mem_map_of_mem (List.getElem_mem hi)
          · exact .inr ⟨fn, rfl⟩
      · obtain ⟨d, rfl, hd⟩ := hn.of_exportee
        exact .inl ⟨_, hd, hin.child (.head _)⟩
    · rcases Node.decl_mem_children hm' with ⟨_, hds, _⟩ | ⟨_, h⟩
      · cases hds
      · cases h

end

/-- **Callable variables are left only where they are exported.** No container of the file that
`normalizeFunctions` gives has a variable without an initialiser that can only be called as a member. A
declaration that is exported where it stands is no member of the container. So such variables are left just if
one of the given file is exported where it stands. -/
theorem normalizeFunctions_callable_iff (f : File) :
    (∀ n ds v, (normalizeFunctions f).value.Contains n → n.members? = some ds → .var v ∈ ds → ¬ v.Callable) ∧
    ((∃ v, (normalizeFunctions f).value.Contains (.decl (.var v)) ∧ v.Callable) ↔
      ∃ x v, f.Contains (.decl (.exports x (.inline (.var v)))) ∧ v.Callable) := by
  have hrewritten := normalizeFunctions_rewritten f
  have hmember : ∀ n ds v, (normalizeFunctions f).value.Contains n → n.members? = some ds → .var v ∈ ds →
      ¬ v.Callable := by
    rintro n ds v hn hds hv ⟨hexpr, t, ht, hcallable⟩
    exact (hrewritten.uncallable.contains hn).here.var hds hv hexpr ht hcallable
  refine ⟨hmember, ?_, ?_⟩
  · rintro ⟨v', hv', hcallable⟩
    cases hv' with
    | child hn hm =>
      rcases Node.decl_mem_children hm with ⟨ds, hds, hd⟩ | ⟨x, rfl⟩
      · exact absurd hcallable (hmember _ ds v' hn hds hd)
      · rcases hn.exists_of_rewritten hrewritten rfl with ⟨n, hn, hin⟩ | ⟨fn, hfn⟩
        · obtain ⟨d, rfl, hd⟩ := hn.of_exportee
          obtain ⟨v, hv⟩ := hd.of_var
          cases hv
          exact ⟨x, v, hin, (VarDecl.callable_iff hd).1 hcallable⟩
        · cases hfn
  · rintro ⟨x, v, hv, hcallable⟩
    obtain ⟨n', hn', hin⟩ := hv.exists_rewritten hrewritten rfl
    obtain ⟨d', rfl, hd'⟩ := hn'.exportee
    obtain ⟨v', hv'⟩ := hd'.var
    cases hv'
    rcases hin with hin | ⟨_, hvar⟩
    · exact ⟨v', hin.child (.head _), (VarDecl.callable_iff hd').2 hcallable⟩
    · cases hvar

/-- `export const f: (x: string) => number` stays a variable. -/
theorem normalizeFunctions_callable_exported :
    ∃ v, (normalizeFunctions (.ofMembers "lib" [.ofExportInline
      (.ofVar "f" (.function (.ofParams [.ofType "x" .string] (some .number))))])).value.Contains
        (.decl (.var v)) ∧ v.Callable :=
  (normalizeFunctions_callable_iff _).2.2 ⟨_, _, .child .file (.head _), rfl, _, rfl, .function _⟩

end Ambient
