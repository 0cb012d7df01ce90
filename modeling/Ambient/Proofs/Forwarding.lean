import Ambient.Pass.Constructors
import Ambient.Proofs.Inheritance

/-!
# Constructors written out on the classes that inherit them

* `Realm.Lineage`: the classes between a class and the one whose constructors it has, each found by the
  name that the class before it refers to.
* `Realm.Answers.lineage`: constructors that are found come along a lineage (`Search.Yields` tells what a
  search may find if its questions may be answered in several ways).
* `Node.Forwards`: what may become of a file whose classes get constructors.
* `forwardCtors_instantiates`: what the classes of a file get.
-/

namespace Ambient

/-! ## Where constructors come from -/

def Member.ctor? : Member → Option Method
  | .function m => if (Member.function m).isClassCtor then some m else none
  | _ => none

def ClassDecl.ctors (c : ClassDecl) : List Method := c.members.filterMap Member.ctor?

theorem ClassDecl.map_ctors (c : ClassDecl) :
    c.ctors.map .function = c.members.filter Member.isClassCtor := by
  rw [ctors]
  induction c.members with
  | nil => rfl
  | cons m ms ih =>
    cases m with
    | function m =>
      rw [List.filterMap_cons, Member.ctor?, List.filter_cons]
      by_cases hm : (Member.function m).isClassCtor = true
      · rw [if_pos hm, if_pos hm, List.map_cons, ih]
      · rw [if_neg hm, if_neg hm, ih]
    | _ => exact ih

theorem ClassDecl.any_isClassCtor (c : ClassDecl) :
    c.members.any Member.isClassCtor = true ↔ c.ctors ≠ [] := by
  have hnil : c.ctors = [] ↔ c.members.filter Member.isClassCtor = [] := by
    rw [← map_ctors, List.map_eq_nil_iff]
  rw [Ne, hnil, List.filter_eq_nil_iff]
  simp

/-- The question may be answered so by a step that asks questions of the realm, with at most `n` questions
inside each other. -/
def Realm.Answers (D : Realm) (n : Nat) (q : Question) (a : q.Answer) : Prop :=
  ∃ T σ σ', σ.Faithful D ∧ (answerWithin n T q).run σ = .ok (a, σ')

/-- The class that a name refers to may be found there. -/
def Realm.Finds (D : Realm) (s : Scope) (q : QIdent) (f : Found) : Prop :=
  ∃ n fs, D.Answers n (.name .classes s q) fs ∧ f ∈ fs

/-- The class `c`, from inside of which `s` looks, has the constructors `own` of the last of its ancestors
`as`, or its own. No class before has any. -/
inductive Realm.Lineage (D : Realm) : Scope → ClassDecl → List Ancestor → List Method → Prop
  | own {s : Scope} {c : ClassDecl} (h : c.ctors ≠ []) : Lineage D s c [] c.ctors
  | inherited {s : Scope} {c c' : ClassDecl} {i : NodeInfo} {q : QIdent} {targs : List Ty} {f : Found}
    {as : List Ancestor} {own : List Method} (hown : c.ctors = [])
    (hparent : c.parent = some (.ref i q targs)) (hf : D.Finds s q f) (hc' : f.decl = .cls c')
    (h : Lineage D f.inner c' as own) : Lineage D s c (⟨c', targs⟩ :: as) own

/-- The constructors with the signatures that come to a class through its ancestors. -/
def inheritAll (as : List Ancestor) (own : List Method) : List Member :=
  own.map fun m => .function { m with sig := inherit as m.sig }

/-! ## What a search may find -/

/-- The search may find `a`, if its questions may be answered as `may` says. -/
inductive Search.Yields (may : (q : Question) → q.Answer → Prop) {α : Type} : Search α → α → Prop
  | done (a : α) : Yields may (.done a) a
  | ask {q : Question} {next : q.Answer → Search α} {b : q.Answer} {a : α} (hb : may q b)
    (h : Yields may (next b) a) : Yields may (.ask q next) a

namespace Search.Yields

variable {may : (q : Question) → q.Answer → Prop} {α β : Type}

theorem eq_of_done {a b : α} (h : (Search.done a).Yields may b) : b = a := by
  cases h
  rfl

theorem of_bind {p : Search α} {f : α → Search β} {b : β} (h : (p >>= f).Yields may b) :
    ∃ a, p.Yields may a ∧ (f a).Yields may b := by
  induction p with
  | done a => exact ⟨a, .done a, h⟩
  | ask q next ih =>
    cases h with
    | ask hb h =>
      obtain ⟨a, ha, hf⟩ := ih _ h
      exact ⟨a, .ask hb ha, hf⟩

theorem of_about {q : Question} {a : q.Answer} (h : (Search.about q).Yields may a) : may q a := by
  cases h with
  | ask hb h =>
    cases h
    exact hb

theorem of_firstNonempty {f : α → Search (List β)} {as : List α} {bs : List β} (hbs : bs ≠ [])
    (h : (firstNonempty f as).Yields may bs) : ∃ a ∈ as, (f a).Yields may bs := by
  induction as with
  | nil => exact absurd h.eq_of_done hbs
  | cons a as ih =>
    obtain ⟨bs', hbs', h⟩ := h.of_bind
    cases bs' with
    | nil =>
      obtain ⟨a', ha', h'⟩ := ih h
      exact ⟨a', .tail _ ha', h'⟩
    | cons b bs' =>
      obtain rfl := h.eq_of_done
      exact ⟨a, .head _, hbs'⟩

theorem of_run {D : Realm} {n : Nat} {T : Trail} {p : Search α} {post : α → Prop}
    (hp : p.Ensures D.asked D.given post) {σ σ' : Session} {a : α} (hσ : σ.Faithful D)
    (h : (p.run (answerWithin n T)).run σ = .ok (a, σ')) :
    p.Yields (fun q b => D.asked q ∧ D.Answers n q b) a := by
  induction p generalizing σ with
  | done b =>
    cases h
    exact .done a
  | ask q next ih =>
    obtain ⟨b, σ₁, hb, hn⟩ := run_ask_ok.1 h
    obtain ⟨hgiven, hafter⟩ := answerWithin_after D n T q σ b σ₁ hp.1 hσ hb
    exact .ask ⟨hp.1, T, σ, σ₁, hσ, hb⟩ (ih b (hp.2 b hgiven) hafter.faithful hn)

end Search.Yields

theorem Realm.Answers.search {D : Realm} {n : Nat} {q : Question} {a : q.Answer}
    (h : D.Answers (n + 1) q a) (hq : D.asked q) (hforg : ∀ m : Memo, m.find? q = none) :
    a = q.unanswered ∨ q.search.Yields (fun q b => D.asked q ∧ D.Answers n q b) a := by
  obtain ⟨T, σ, σ', hσ, hrun⟩ := h
  by_cases hcut : q.CutOn T
  · rw [answerWithin_cut hcut] at hrun
    cases hrun
    exact .inl rfl
  · rw [answerWithin_open hcut] at hrun
    obtain ⟨σ₁, hcomp⟩ : ∃ σ₁, (q.search.run (answerWithin n (q.trail T))).run σ = .ok (a, σ₁) := by
      cases hmemo : σ.memo with
      | none =>
        rw [memoized_of_none hmemo] at hrun
        exact ⟨σ', hrun⟩
      | some m =>
        rw [memoized_of_miss hmemo (hforg m)] at hrun
        obtain ⟨r, hcomp, hrun⟩ := map_eq_ok.1 hrun
        cases hrun
        exact ⟨r.2, hcomp⟩
    exact .inr (.of_run (D.search q hq) hσ hcomp)

/-! ## Lineages of constructors -/

theorem inheritAll_nil (own : List Method) : inheritAll [] own = own.map .function := by
  refine List.map_congr_left fun m _ => ?_
  cases m
  rfl

theorem inheritAll_cons (a : Ancestor) (as : List Ancestor) (own : List Method) :
    inheritAll (a :: as) own = instantiateCtors a.cls a.targs (inheritAll as own) := by
  have hsig : ∀ m : Method, inherit (a :: as) m.sig = a.instantiate (inherit as m.sig) := fun _ => rfl
  unfold instantiateCtors
  by_cases hempty : (instantiation a.cls.tparams a.targs).isEmpty = true
  · simp only [inheritAll, hsig, Ancestor.instantiate, hempty, if_true]
  · simp only [inheritAll, hsig, Ancestor.instantiate, hempty, Bool.false_eq_true, if_false, List.map_map]
    rfl

variable {b : Bool} {ms : List Member} {n n' : Node}

namespace Realm.Answers

variable {D : Realm}

theorem ctors_found {n : Nat} {s : Scope} {q : QIdent} {targs : List Ty}
    (h : D.Answers n (.ctors s q targs) ms) (hq : D.asked (.ctors s q targs)) (hms : ms ≠ []) :
    ∃ f c ms₀, D.Finds s q f ∧ f.decl = .cls c ∧ ms = instantiateCtors c targs ms₀ ∧
      D.asked (.ctorsOf f c) ∧ ∃ m < n, D.Answers m (.ctorsOf f c) ms₀ := by
  cases n with
  | zero =>
    obtain ⟨T, σ, σ', -, hrun⟩ := h
    cases hrun
  | succ n =>
    obtain rfl | hsrch := h.search hq fun _ => rfl
    · exact absurd rfl hms
    obtain ⟨fs, hfs, hsrch⟩ := hsrch.of_bind
    obtain ⟨f, hf, hsrch⟩ := Search.Yields.of_firstNonempty hms hsrch
    have hfinds : D.Finds s q f := ⟨n, fs, hfs.of_about.2, hf⟩
    unfold ctorsOfFound at hsrch
    split at hsrch
    · rename_i c hc
      obtain ⟨ms₀, hms₀, hsrch⟩ := hsrch.of_bind
      obtain ⟨hasked, hanss⟩ := hms₀.of_about
      exact ⟨f, c, ms₀, hfinds, hc, hsrch.eq_of_done, hasked, n, Nat.lt_succ_self n, hanss⟩
    · exact absurd hsrch.eq_of_done hms

theorem ne_nil_of_instantiateCtors {c : ClassDecl} {targs : List Ty}
    (h : instantiateCtors c targs ms ≠ []) : ms ≠ [] := by
  rintro rfl
  exact h (ite_self _)

/-- **Constructors come along a lineage.** By induction on the number of questions inside each other: a
class without constructors asks for those that the reference to its parent provides. -/
theorem lineage {n : Nat} {f : Found} {c : ClassDecl} (h : D.Answers n (.ctorsOf f c) ms)
    (hq : D.asked (.ctorsOf f c)) (hms : ms ≠ []) :
    ∃ as own, D.Lineage f.inner c as own ∧ ms = inheritAll as own := by
  induction n using Nat.strongRecOn generalizing f c ms with
  | ind n ih =>
    cases n with
    | zero =>
      obtain ⟨T, σ, σ', -, hrun⟩ := h
      cases hrun
    | succ n =>
      obtain rfl | hsrch := h.search hq fun _ => rfl
      · exact absurd rfl hms
      simp only [Question.search, classCtorsSearch, ← c.map_ctors] at hsrch
      split at hsrch
      · rename_i hown
        obtain rfl := hsrch.eq_of_done
        exact ⟨[], c.ctors, .own (by simpa using hown), (inheritAll_nil _).symm⟩
      · rename_i hown
        split at hsrch
        · rename_i i q targs hpar
          obtain ⟨hasked, hanss⟩ := hsrch.of_about
          obtain ⟨f', c', ms₀, hf', hc', rfl, hasked', m, hm, hanss'⟩ := hanss.ctors_found hasked hms
          obtain ⟨as, own, hlin, rfl⟩ :=
            ih m (Nat.lt_succ_of_lt hm) hanss' hasked' (ne_nil_of_instantiateCtors hms)
          exact ⟨⟨c', targs⟩ :: as, own, .inherited (by simpa using hown) hpar hf' hc' hlin,
            (inheritAll_cons ⟨c', targs⟩ as own).symm⟩
        · exact absurd hsrch.eq_of_done hms

end Realm.Answers

/-! ## What becomes of a file -/

/-- What may become of a node whose classes get constructors: the class `c`, from inside of which `s` looks,
may get what `gets s c` says. Everything else stays as it is. -/
inductive Node.Forwards (gets : Scope → ClassDecl → List Member → Prop) : Scope → Node → Node → Prop
  | cls {s : Scope} {c : ClassDecl} {ctors : List Member} (h : gets (s.enter (.decl (.cls c))) c ctors) :
    Forwards gets s (.decl (.cls c)) (.decl (.cls { c with members := ctors ++ c.members }))
  | container {s : Scope} {n n' : Node} {ds ds' : List Decl} (hds : n.members? = some ds)
    (hn' : n.withMembers? ds' = some n') (hlength : ds'.length = ds.length)
    (h : ∀ (k : Nat) (d d' : Decl), ds[k]? = some d → ds'[k]? = some d' →
      Forwards gets (s.enter n) (.decl d) (.decl d')) : Forwards gets s n n'
  | inline {s : Scope} {x : ExportHead} {d d' : Decl}
    (h : Forwards gets (s.enter (.decl (.exports x (.inline d)))) (.decl d) (.decl d')) :
    Forwards gets s (.decl (.exports x (.inline d))) (.decl (.exports x (.inline d')))
  | same {s : Scope} {n : Node} (hcls : ∀ c, n ≠ .decl (.cls c)) (hmembers : n.members? = none)
    (hinline : n.exportee? = none) : Forwards gets s n n

/-- What is known of a node when its parts are done: a class has not got its constructors yet. -/
def Node.ForwardsInside (gets : Scope → ClassDecl → List Member → Prop) (s : Scope) : Node → Node → Prop
  | .decl (.cls c), n' => n' = .decl (.cls c)
  | n, n' => n.Forwards gets s n'

/-- The class gets constructors only if it has none, and then those of its lineage. It gets none only if
none may be found. -/
structure Realm.Gets (D : Realm) (s : Scope) (c : ClassDecl) (ctors : List Member) : Prop where
  lineage : ctors ≠ [] → c.ctors = [] ∧ ∃ as own, D.Lineage s c as own ∧ ctors = inheritAll as own
  missing : ctors = [] → c.ctors = [] → ∀ {i q targs}, c.parent = some (.ref i q targs) →
    D.MayAnswer (.ctors s q targs) []

section
variable {gets : Scope → ClassDecl → List Member → Prop} {s : Scope}

theorem Node.Forwards.eq_of_isPart (h : n.Forwards gets s n') (hn : n.isPart = true) : n' = n := by
  cases h with
  | cls | inline => cases hn
  | same => rfl
  | container hds =>
    cases n with
    | file f => cases hn
    | decl d => cases hn
    | _ => cases hds

theorem Node.isPart_of_exportee? {m : Node} (hmems : n.members? = none)
    (hinl : n.exportee? = none) (hm : m ∈ n.children) : m.isPart = true := by
  cases n with
  | file f => cases hmems
  | decl d =>
    cases d with
    | space h ds => cases hmems
    | module h ds => cases hmems
    | augmentation h ds => cases hmems
    | global h ds => cases hmems
    | exports x e =>
      cases e with
      | inline d => cases hinl
      | _ => cases hm
    | imports i => cases hm
    | exportAs e => cases hm
    | _ => exact isPart_children rfl hm
  | _ => exact isPart_children rfl hm

theorem Rebuilt.eq_of_parts (h : Rebuilt (fun m m' _ => m.Forwards gets s m') n n' b)
    (hall : ∀ m ∈ n.children, m.isPart = true) : n' = n := by
  refine h.alike.eq ?_
  obtain ⟨-, hparts⟩ := h
  generalize n.children = ns at hparts hall
  generalize n'.children = ns' at hparts
  induction hparts with
  | nil => rfl
  | @cons m m' ns ns' _ _ hm _ ih =>
    rw [hm.eq_of_isPart (hall m (.head _)), ih fun m hm => hall m (.tail _ hm)]

theorem Node.forwardsInside_iff (hcls : ∀ c, n ≠ .decl (.cls c)) :
    n.ForwardsInside gets s n' ↔ n.Forwards gets s n' := by
  unfold ForwardsInside
  split
  · exact absurd rfl (hcls _)
  · exact Iff.rfl

theorem Node.Forwards.cls_of_cls {d : Decl} {c : ClassDecl}
    (h : (Node.decl d).Forwards gets s (.decl (.cls c))) : ∃ c, d = .cls c := by
  generalize hn' : Node.decl (.cls c) = n' at h
  cases h with
  | cls => exact ⟨_, rfl⟩
  | container _ hwith =>
    subst hn'
    cases d <;> cases hwith
  | inline => cases hn'
  | same =>
    cases hn'
    exact ⟨c, rfl⟩

theorem Rebuilt.forwardsInside (h : Rebuilt (fun m m' _ => m.Forwards gets (s.enter n) m') n n' b)
    (hmems : n.members? = none) : n.ForwardsInside gets s n' := by
  cases hinl : n.exportee? with
  | none =>
    obtain rfl := h.eq_of_parts fun m hm => Node.isPart_of_exportee? hmems hinl hm
    unfold Node.ForwardsInside
    split
    · rfl
    · rename_i hcls
      exact .same hcls hmems hinl
  | some d =>
    unfold Node.exportee? at hinl
    split at hinl
    · obtain ⟨halike, hparts⟩ := h
      cases halike with
      | leaf hn => cases hn
      | inline x d d' =>
        cases hparts with
        | cons hd _ => exact .inline hd
    · cases hinl

theorem Walked.forwards {ds ds' : List Decl} (hds : n.members? = some ds)
    (h : Walked (fun m m' _ => m.Forwards gets (s.enter n) m') (ds.map .decl) (ds'.map .decl) b)
    (hn' : n.withMembers? ds' = some n') : n.Forwards gets s n' := by
  refine .container hds hn' (by simpa using h.length_eq) fun k d d' hd hd' => ?_
  obtain ⟨-, hR⟩ := h.getElem? (i := k) (by rw [List.getElem?_map, hd]; rfl)
    (by rw [List.getElem?_map, hd']; rfl)
  exact hR

end

/-! ## The walk -/

section
variable {root : Root} {f : File}

/-- What a class gets: the constructors that the reference to its parent provides, if it has none. -/
inductive Realm.Obtains (D : Realm) (s : Scope) (c : ClassDecl) : List Member → Prop
  | own (hown : c.ctors ≠ []) : Obtains D s c []
  | orphan (hown : c.ctors = []) (hparent : ∀ i q targs, c.parent ≠ some (.ref i q targs)) :
    Obtains D s c []
  | inherited {i : NodeInfo} {q : QIdent} {targs : List Ty} {ctors : List Member} (hown : c.ctors = [])
    (hparent : c.parent = some (.ref i q targs)) (h : D.MayAnswer (.ctors s q targs) ctors) :
    Obtains D s c ctors

/-- **What a class gets.** -/
theorem forwardTo_obtains {s : Scope} {c : ClassDecl} (hs : root.Inside f s) {w} :
    (root.seeks f).ends w (forwardTo s (.cls c)) fun r _ =>
      ∃ ctors, (root.searches f).realm.Obtains s c ctors ∧
        r.getD (.cls c) = .cls { c with members := ctors ++ c.members } := by
  simp only [forwardTo]
  split
  · rename_i hown
    exact .pure ⟨[], .own (c.any_isClassCtor.1 hown), rfl⟩
  · rename_i hown
    have hown : c.ctors = [] := by simpa using mt c.any_isClassCtor.2 hown
    split
    · rename_i i q targs hpar
      refine .bind (afresh_asking (Query.run_asking (hs.ctors_in q targs))) fun ms _ _ hms => ?_
      split
      · exact .pure ⟨[], .inherited hown hpar hms, rfl⟩
      · exact .pure ⟨ms, .inherited hown hpar hms, rfl⟩
    · rename_i hpar
      exact .pure ⟨[], .orphan hown hpar, rfl⟩

theorem Realm.Obtains.gets {s : Scope} {c : ClassDecl} (hs : root.Inside f s) {ctors : List Member}
    (h : (root.searches f).realm.Obtains s c ctors) : (root.searches f).realm.Gets s c ctors := by
  cases h with
  | own hown => exact ⟨fun hne => absurd rfl hne, fun _ hnil => absurd hnil hown⟩
  | orphan _ hpar =>
    exact ⟨fun hne => absurd rfl hne, fun _ _ {i q targs} h => absurd h (hpar i q targs)⟩
  | @inherited i q targs ctors hown hpar hms =>
    refine ⟨fun hne => ⟨hown, ?_⟩, fun hnil _ {i' q' targs'} hpar' => ?_⟩
    · obtain ⟨σ, σ', hσ, hrun⟩ := hms
      have hasked : (root.searches f).realm.asked (.ctors s q targs) := (hs.ctors_in q targs).1
      have hanss : (root.searches f).realm.Answers (s.searchBound 1) (.ctors s q targs) ctors :=
        ⟨[], σ, σ', hσ, hrun⟩
      obtain ⟨f', c', ms₀, hf', hc', rfl, hasked', m, -, hanss'⟩ := hanss.ctors_found hasked hne
      obtain ⟨as, own, hlin, rfl⟩ :=
        hanss'.lineage hasked' (Realm.Answers.ne_nil_of_instantiateCtors hne)
      exact ⟨⟨c', targs⟩ :: as, own, .inherited hown hpar hf' hc' hlin,
        (inheritAll_cons ⟨c', targs⟩ as own).symm⟩
    · subst hnil
      cases hpar.symm.trans hpar'
      exact hms

theorem forwardTo_other {s : Scope} {d : Decl} (hd : ∀ c, d ≠ .cls c) {w} :
    (root.seeks f).ends w (forwardTo s d) fun r _ => r = none := by
  unfold forwardTo
  split
  · rename_i c
    exact absurd rfl (hd c)
  · exact .pure rfl

section
variable {gets : Scope → ClassDecl → List Member → Prop}
  (hgets : ∀ {s : Scope} {c : ClassDecl}, root.Inside f (s.enter (.decl (.cls c))) →
    ∀ {ctors}, (root.searches f).realm.Obtains (s.enter (.decl (.cls c))) c ctors →
      gets (s.enter (.decl (.cls c))) c ctors)
include hgets

theorem constructorHooks_builds :
    constructorHooks.Builds (root.seeks f) (fun s n => root.Inside f (s.enter n))
      (fun _ _ p => p = none) (fun _ _ s n n' _ => n.ForwardsInside gets s n')
      (fun _ _ s n n' _ => n.Forwards gets s n') where
  idle := {}
  child := Root.Inside.within
  mono _ _ hR := hR
  plain _ hmems _ hbuilt := hbuilt.forwardsInside hmems
  enterFile _ := Logic.pure _ rfl
  enterDecl _ := Logic.pure _ rfl
  newMembers {w w' s n ds ds' b} owner _ hds hwlk := by
    refine Logic.pure _ fun {n'} hn' => ?_
    refine (Node.forwardsInside_iff ?_).2 (hwlk.forwards hds hn')
    rintro c rfl
    cases hds
  newClassMembers {w w' s n n' ms b} owner _ hbuilt hms := by
    refine Logic.pure _ fun {n''} hn'' => ?_
    obtain rfl := Node.withClassMembers?_eq hms hn''
    have hmems := hbuilt.alike.members?_eq.symm.trans (Node.members?_of_classMembers? hms)
    exact hbuilt.forwardsInside hmems
  leaveFile _ hp hS := by
    subst hp
    exact hS
  leaveDecl {w w' s d d' p b} hs hp hS := by
    subst hp
    by_cases hcls : ∃ c, d = .cls c
    · obtain ⟨c, rfl⟩ := hcls
      cases hS
      refine Logic.imp (forwardTo_obtains hs) fun r _ hr => ?_
      obtain ⟨ctors, hobt, hr⟩ := hr
      have hclass : (Node.decl (.cls c)).Forwards gets s (.decl (r.getD (.cls c))) := by
        rw [hr]
        exact .cls (hgets hs hobt)
      exact hclass
    · have hfwd := (Node.forwardsInside_iff fun c hc => hcls ⟨c, Node.decl.inj hc⟩).1 hS
      have hd' : ∀ c, d' ≠ .cls c := by
        rintro c rfl
        exact hcls hfwd.cls_of_cls
      refine Logic.imp (forwardTo_other hd') fun r _ hr => ?_
      subst hr
      exact hfwd
  leaveTy _ hS := Logic.pure _ hS
  keep {w w' s n n' b} _ hn hS := by
    cases n with
    | file f | decl d => cases hn
    | _ => exact hS

theorem forwardCtors_forwards {w} :
    (root.seeks f).ends w (forwardCtors (.ofRoot root) f) fun e _ =>
      (Node.file f).Forwards gets (.ofRoot root) (.file e.value) :=
  walkFile_builds (constructorHooks_builds hgets) f .file w

end

end

/-- **Constructors are written out as classes inherit them.** A class without constructors gets those of
its lineage, each with the signature that comes to it through its ancestors. If nothing is in the way,
that is the signature with the type parameters of each class in turn replaced by what they stand for, and
no type parameter stays free in it. -/
theorem forwardCtors_instantiates (lib : Library) (pedantic remember : Bool) :
    (∃ e, Pass.forwardCtors.runAnew (lib.root pedantic) remember lib.file = .ok e ∧
      (Node.file lib.numbered).Forwards ((lib.root pedantic).searches lib.numbered).realm.Gets
        (.ofRoot (lib.root pedantic)) (.file e.value)) ∧
      ∀ (as : List Ancestor) (s : Signature), Smooth as s →
        (∀ s', Inherited as s s' ↔ s' = inherit as s) ∧
          ∀ x, (Node.sig (inherit as s)).Free x → StaysFree as s x := by
  refine ⟨?_, fun as s h => ⟨inherited_iff h, fun x => staysFree_of_free h⟩⟩
  have hfresh := Session.faithful_fresh (lib.numbered_root pedantic).searches.apart remember
  obtain ⟨e, σ', hrun, -, hforwards⟩ :=
    forwardCtors_forwards (fun hs _ hobtains => hobtains.gets hs) (w := ()) _ hfresh
  have hanew : Pass.forwardCtors.runAnew (lib.root pedantic) remember lib.file =
      (forwardCtors (.ofRoot (lib.root pedantic)) lib.numbered).run
        { memo := if remember then some {} else none } >>= fun r => pure r.1 := rfl
  exact ⟨e, by rw [hanew, hrun]; rfl, hforwards⟩

/-- `constructor(f: <R>(x: …) => R, u: …)`, which binds a type parameter inside of it. -/
def mapping (x u : Ty) : Signature :=
  .ofParams [.ofType "f" (.function ⟨{}, [.ofName "R"], [.ofType "x" x], some (.reference ["R"] [])⟩),
    .ofType "u" u] none

/-- `class A<T, U = number>`, which declares a constructor. -/
def declaring : ClassDecl :=
  ⟨{}, true, false, "A", [.ofName "T", ⟨{}, "U", none, some .number⟩], none, [],
    [.ofSignature "constructor" (mapping (.reference ["T"] []) (.reference ["U"] []))], .zero, .noPath⟩

/-- `class M<V> extends A<Array<V>>`. -/
def passing : ClassDecl :=
  ⟨{}, true, false, "M", [.ofName "V"],
    some (.reference ["A"] [.reference ["Array"] [.reference ["V"] []]]), [], [], .zero, .noPath⟩

/-- The two classes and `class B extends M<string>`. -/
def inheriting : Library where
  name := "lib"
  deps := []
  file := File.ofMembers "lib"
    [.cls declaring, .cls passing, .ofClass "B" (some (.reference ["M"] [.string])) []]

/-- The members of the three classes, with constructors written out. -/
def writtenOut : List (List Member) :=
  [[.ofSignature "constructor" (mapping (.reference ["T"] []) (.reference ["U"] []))],
   [.ofSignature "constructor" (mapping (.reference ["Array"] [.reference ["V"] []]) .number)],
   [.ofSignature "constructor" (mapping (.reference ["Array"] [.string]) .number)]]

/-- The way from `class B` to the constructor. -/
def ancestry : List Ancestor :=
  [⟨passing, [.string]⟩, ⟨declaring, [.reference ["Array"] [.reference ["V"] []]]⟩]

theorem smooth_ancestry : Smooth ancestry (mapping (.reference ["T"] []) (.reference ["U"] [])) := by
  refine ⟨⟨trivial, .of_avoids 4 ?_, Ancestor.admits_of_apart ["R"] 8 ?_ ?_ ?_⟩,
    .of_avoids 4 ?_, Ancestor.admits_of_apart ["R"] 8 ?_ ?_ ?_⟩
  all_goals decide +kernel

/-- `class M` gets `Array<V>` and the default for `T` and `U`, and `class B` gets `string` for `V`. -/
theorem forwardCtors_instantiates_ancestry :
    (∃ e, Pass.forwardCtors.runAnew (inheriting.root false) true inheriting.file = .ok e ∧
      (Node.file inheriting.numbered).Forwards
        ((inheriting.root false).searches inheriting.numbered).realm.Gets
        (.ofRoot (inheriting.root false)) (.file e.value) ∧
      (e.value.members.map (·.classMembers?.getD []) == writtenOut) = true) ∧
    Smooth ancestry (mapping (.reference ["T"] []) (.reference ["U"] [])) ∧
    Inherited ancestry (mapping (.reference ["T"] []) (.reference ["U"] []))
      (mapping (.reference ["Array"] [.string]) .number) ∧
    ∀ x, (Node.sig (mapping (.reference ["Array"] [.string]) .number)).Free x →
      StaysFree ancestry (mapping (.reference ["T"] []) (.reference ["U"] [])) x := by
  have hrun : ((Pass.forwardCtors.runAnew (inheriting.root false) true
      inheriting.file).toOption.any fun e =>
      e.value.members.map (·.classMembers?.getD []) == writtenOut) = true := by
    decide +kernel
  have hinherit : inherit ancestry (mapping (.reference ["T"] []) (.reference ["U"] [])) =
      mapping (.reference ["Array"] [.string]) .number := by cbv
  obtain ⟨⟨e, he, hforwards⟩, hway⟩ := forwardCtors_instantiates inheriting false true
  obtain ⟨hiff, hfree⟩ := hway _ _ smooth_ancestry
  rw [he] at hrun
  rw [hinherit] at hfree
  exact ⟨⟨e, he, hforwards, hrun⟩, smooth_ancestry, (hiff _).2 hinherit.symm, hfree⟩

end Ambient
