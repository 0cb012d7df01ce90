import Ambient.Proofs.Library
import Ambient.Tree.Build

/-!
# Members that are inherited

A declaration has its own members and, after them, those that it inherits and that are not overridden.
An inherited member is overridden by one of its name that is there already, and that may be one which
was inherited just before: of several inherited members of one name only the first is kept.

* `foldl_inheritMember`: what becomes of inherited members, as a list (`Member.undeclared`,
  `Member.firstOfName`).
* `Realm.members_of_heritage`: the members of a name that denotes one interface or class, in terms of what
  each type that it inherits from has.
* `membersOf_single_parent`: with one such type, its members are all kept, those apart that the declaration
  declares itself, if and only if no two of these have the same name.
-/

namespace Ambient

/-! ## Names that are taken -/

variable {f : Found} {own : List Member} {ps : List Ty} {q : QIdent} {s : Scope}

namespace Member

/-- Does one of the members declare the name of `m`? -/
def declaredBy (own : List Member) (m : Member) : Bool :=
  m.name?.isSome && own.any fun o => o.name? == m.name?

def undeclared (own ms : List Member) : List Member :=
  ms.filter fun m => !m.declaredBy own

/-- The members without those whose name a member before has. -/
def firstOfName : List Member → List Member
  | [] => []
  | m :: ms => m :: undeclared [m] (firstOfName ms)

/-- No two of the members have the same name. -/
def OneOfName (ms : List Member) : Prop :=
  ms.Pairwise fun m n => n.declaredBy [m] = false

theorem declaredBy_append (own own' : List Member) (m : Member) :
    m.declaredBy (own ++ own') = (m.declaredBy own || m.declaredBy own') := by
  simp only [declaredBy, List.any_append, Bool.and_or_distrib_left]

theorem declaredBy_trans {m n : Member} (hm : m.declaredBy own = true) (hn : n.declaredBy [m] = true) :
    n.declaredBy own = true := by
  simp only [declaredBy, Bool.and_eq_true, List.any_cons, List.any_nil, Bool.or_false,
    beq_iff_eq] at hm hn ⊢
  rw [← hn.2]
  exact hm

theorem undeclared_append (own own' ms : List Member) :
    undeclared (own ++ own') ms = undeclared own (undeclared own' ms) := by
  simp only [undeclared, List.filter_filter, declaredBy_append, Bool.not_or]

theorem undeclared_comm (own own' ms : List Member) :
    undeclared own (undeclared own' ms) = undeclared own' (undeclared own ms) := by
  simp only [undeclared, List.filter_filter, Bool.and_comm]

theorem undeclared_cons (own : List Member) (m : Member) (ms : List Member) :
    undeclared own (m :: ms) =
      if m.declaredBy own = true then undeclared own ms else m :: undeclared own ms := by
  rw [undeclared, List.filter_cons]
  cases m.declaredBy own <;> rfl

theorem undeclared_undeclared {m : Member} (hm : m.declaredBy own = true) (ms : List Member) :
    undeclared own (undeclared [m] ms) = undeclared own ms := by
  rw [undeclared, undeclared, undeclared, List.filter_filter]
  refine List.filter_congr fun n _ => ?_
  cases hn : n.declaredBy [m] with
  | false => simp
  | true => simp [declaredBy_trans hm hn]

theorem firstOfName_undeclared (own ms : List Member) :
    firstOfName (undeclared own ms) = undeclared own (firstOfName ms) := by
  induction ms with
  | nil => rfl
  | cons m ms ih =>
    rw [firstOfName, undeclared_cons, undeclared_cons]
    split
    · rename_i hm
      rw [ih, undeclared_undeclared hm]
    · rw [firstOfName, ih, undeclared_comm]

theorem firstOfName_sublist (ms : List Member) : (firstOfName ms).Sublist ms := by
  induction ms with
  | nil => exact .slnil
  | cons m ms ih => exact (List.filter_sublist.trans ih).cons_cons m

/-- All members are left if and only if no two have the same name. -/
theorem firstOfName_eq_self_iff (ms : List Member) : firstOfName ms = ms ↔ OneOfName ms := by
  induction ms with
  | nil => exact ⟨fun _ => .nil, fun _ => rfl⟩
  | cons m ms ih =>
    rw [OneOfName, List.pairwise_cons, ← OneOfName, ← ih, firstOfName, List.cons.injEq]
    have hkept : undeclared [m] ms = ms ↔ ∀ n ∈ ms, n.declaredBy [m] = false := by
      simp only [undeclared, List.filter_eq_self, Bool.not_eq_true']
    constructor
    · rintro ⟨-, h⟩
      -- What is left of the rest is all of it, so the first of each name are all of it as well.
      have hsub : (undeclared [m] (firstOfName ms)).Sublist (firstOfName ms) := List.filter_sublist
      rw [h] at hsub
      have hfirst : firstOfName ms = ms := (firstOfName_sublist ms).eq_of_length_le hsub.length_le
      rw [hfirst] at h
      exact ⟨hkept.1 h, hfirst⟩
    · rintro ⟨hm, hfirst⟩
      exact ⟨rfl, by rw [hfirst, hkept.2 hm]⟩

end Member

open Member

/-- **Inherited members are added** if their name is not declared and they are the first of it. -/
theorem foldl_inheritMember (own ms : List Member) :
    ms.foldl inheritMember own = own ++ firstOfName (undeclared own ms) := by
  induction ms generalizing own with
  | nil => simp [undeclared, firstOfName]
  | cons m ms ih =>
    have hadd : inheritMember own m = if m.declaredBy own = true then own else own ++ [m] := by
      unfold inheritMember declaredBy
      cases m.name? <;> simp
    rw [List.foldl_cons, hadd, undeclared_cons]
    split
    · exact ih own
    · rw [ih, firstOfName, undeclared_append, firstOfName_undeclared, firstOfName_undeclared,
        firstOfName_undeclared, undeclared_comm, List.append_assoc]
      rfl

/-! ## What a declaration contributes -/

/-- The members of an interface or class, and the types that it inherits from. -/
def Decl.heritage? : Decl → Option (List Member × List Ty)
  | .iface i => some (i.members, i.inheritance)
  | .cls c => some (c.members, c.parent.toList ++ c.implements)
  | _ => none

def Scope.inheritedFrom (s : Scope) (t : Ty) (trail : Trail) : Resolve (List Member) :=
  match t with
  | .ref _ x _ => return (← s.membersOf x trail).getD []
  | .object _ ms => return ms
  | _ => return []

/-- What a search for the members of the declaration takes up on its trail. -/
def Found.pair (f : Found) : ScopeKey × Step := (f.scope.key, .node f.decl.id)

theorem contributionSearch_heritage (h : f.decl.heritage? = some (own, ps)) :
    contributionSearch f = (do return [⟨true, own, ← concatMapM (membersOfParent f.inner) ps⟩]) := by
  unfold contributionSearch
  cases hd : f.decl with
  | iface i | cls c =>
    rw [hd] at h
    cases h
    simp only [contributionOf, bind_assoc, pure_bind]
  | _ =>
    rw [hd] at h
    cases h

/-! ## Runs in a realm -/

/-- What is promised of a search that goes on with the result of another is promised for every result. -/
theorem Search.Ensures.of_bind {asked : Question → Prop} {given : (q : Question) → q.Answer → Prop}
    {α β : Type} {post : β → Prop} {p : Search α} {k : α → Search β}
    (h : (p >>= k).Ensures asked given post) :
    p.Ensures asked given fun a => (k a).Ensures asked given post := by
  induction p with
  | done a => exact h
  | ask q next ih => exact ⟨h.1, fun a ha => ih a (h.2 a ha)⟩

/-- A search of a realm that runs in a session with a faithful memory, and how it ends. -/
structure Realm.Runs (D : Realm) (n : Nat) (T : Trail) {α : Type} (p : Search α) (σ : Session) (a : α)
    (σ' : Session) : Prop where
  search : p.Ensures D.asked D.given fun _ => True
  faithful : σ.Faithful D
  run : (p.run (answerWithin n T)).run σ = .ok (a, σ')

namespace Realm.Runs

variable {D : Realm} {n : Nat} {T : Trail} {α β : Type} {σ σ' : Session}

theorem bind {p : Search α} {k : α → Search β} {b : β} (h : D.Runs n T (p >>= k) σ b σ') :
    ∃ a σ₁, D.Runs n T p σ a σ₁ ∧ D.Runs n T (k a) σ₁ b σ' := by
  have hrun := h.run
  rw [Search.run_bind, StateT.run_bind] at hrun
  obtain ⟨⟨a, σ₁⟩, hp, hrun⟩ := bind_eq_ok.1 hrun
  obtain ⟨hk, hafter⟩ := (answerWithin_after D n T).run h.search.of_bind h.faithful hp
  exact ⟨a, σ₁, ⟨h.search.of_bind.mono (fun _ hq => hq) fun _ _ => trivial, h.faithful, hp⟩,
    hk, hafter.faithful, hrun⟩

theorem eq_of_done {a b : α} (h : D.Runs n T (.done a) σ b σ') : b = a ∧ σ' = σ := by
  cases h.run
  exact ⟨rfl, rfl⟩

theorem eq_of_pure {a b : α} (h : D.Runs n T (pure a) σ b σ') : b = a ∧ σ' = σ := h.eq_of_done

theorem search_of_about {q : Question} {a : q.Answer} (h : D.Runs (n + 1) T (Search.about q) σ a σ')
    (hcut : ¬ q.CutOn T) (hslot : q.slot? = none) : D.Runs n (q.trail T) q.search σ a σ' := by
  have hq : D.asked q := h.search.1
  refine ⟨(D.search q hq).mono (fun _ h => h) fun _ _ => trivial, h.faithful, ?_⟩
  have hrun := h.run
  rw [Query.run_about, answerWithin_open hcut] at hrun
  cases hmemo : σ.memo with
  | none => rwa [memoized_of_none hmemo] at hrun
  | some m =>
    have hforg : m.find? q = none ∧ ∀ (m' : Memo) (b : q.Answer), m'.store q b = m' := by
      cases q with
      | imported s i => cases hslot
      | exported s x e => cases hslot
      | keys s t => cases t <;> first | exact ⟨rfl, fun _ _ => rfl⟩ | cases hslot
      | _ => exact ⟨rfl, fun _ _ => rfl⟩
    rw [memoized_of_miss hmemo hforg.1] at hrun
    have hkeep : ∀ (σ₁ : Session) (b : q.Answer), σ₁.keep σ.cuts q b = σ₁ := by
      intro σ₁ b
      unfold Session.keep
      split
      · simp only [hforg.2, Option.map_id_fun', id_eq]
      · rfl
    obtain ⟨⟨b, σ₁⟩, hs, hrun⟩ := map_eq_ok.1 hrun
    rwa [← hrun, hkeep]

theorem query {Q : Query} {a : Q.Answer} (h : D.Runs n T Q.search σ a σ') (hn : Q.bound ≤ n) :
    (Q.run T).run σ = .ok (a, σ') := by
  have hends : Q.Ends T σ := Query.ends_of_faithful h.search T h.faithful
  obtain ⟨r, hr, hbound⟩ := hends.answer
  cases (hbound n hn).symm.trans h.run
  exact hr

theorem parents (hn : s.searchBound 1 ≤ n) {ms : List Member}
    (h : D.Runs n T (concatMapM (membersOfParent s) ps) σ ms σ') :
    (concatMapM (fun p => s.inheritedFrom p T) ps).run σ = .ok (ms, σ') := by
  induction ps generalizing σ ms with
  | nil =>
    obtain ⟨rfl, rfl⟩ := h.eq_of_pure
    rfl
  | cons p ps ih =>
    obtain ⟨ms₁, σ₁, hp, h⟩ := h.bind
    obtain ⟨ms₂, σ₂, hps, h⟩ := h.bind
    obtain ⟨rfl, rfl⟩ := h.eq_of_pure
    have hpar : (s.inheritedFrom p T).run σ = .ok (ms₁, σ₁) := by
      cases p with
      | ref i x targs =>
        obtain ⟨o, σ₀, hx, hp⟩ := hp.bind
        obtain ⟨rfl, rfl⟩ := hp.eq_of_pure
        have hmems : (s.membersOf x T).run σ = .ok (o, σ₁) := Runs.query (Q := .members s x) hx hn
        simp only [Scope.inheritedFrom, StateT.run_bind, hmems]
        rfl
      | _ =>
        obtain ⟨rfl, rfl⟩ := hp.eq_of_pure
        rfl
    simp only [concatMapM, StateT.run_bind, hpar, ok_bind, ih hps]
    rfl

end Realm.Runs

/-! ## The members of one declaration -/

theorem isSettled_of_found {picker : Picker} {n : Nat} {T : Trail} {σ σ₁ : Session} {fs : List Found}
    (h : (answerWithin n T (.name picker s q)).run σ = .ok (f :: fs, σ₁)) : s.isSettled q = false := by
  cases n with
  | zero => cases h
  | succ n =>
    rw [← Bool.not_eq_true]
    intro hset
    have hpair : (Question.name picker s q).pair? = none := if_pos hset
    have hnone : nameSearch picker s q = .done [] := by
      cases q with
      | nil => rfl
      | cons x xs => exact if_pos hset
    rw [answerWithin_open (by rintro ⟨p, hp, -⟩; rw [hpair] at hp; cases hp), Question.search, hnone] at h
    cases hmemo : σ.memo with
    | none =>
      rw [memoized_of_none hmemo] at h
      cases h
    | some m =>
      rw [memoized_of_miss hmemo rfl] at h
      cases h

theorem membersSearch_of_open (h : (QIdent.isPrimitive q || s.isAbstract q) = false) :
    membersSearch s q = (do
      let found ← Search.about (.name .types s q)
      return joinContributions (← concatMapM (fun f => Search.about (.contribution f)) found)) := by
  rw [membersSearch, if_neg (by simp [h])]

/-- **The members of a name** are joined from what the types that it denotes contribute, with any number from
the bound of the search on as a bound. -/
theorem Realm.members_of_types {D : Realm} {T : Trail} {σ : Session} (hq : (Query.members s q).In D)
    (hσ : σ.Faithful D) (h : (QIdent.isPrimitive q || s.isAbstract q) = false) {n : Nat}
    (hn : s.searchBound 1 ≤ n) :
    ∃ fs σ₁ cs σ₂, (s.lookupType q T).run σ = .ok (fs, σ₁) ∧
      D.Runs (n + 1) T (concatMapM (fun f => Search.about (.contribution f)) fs) σ₁ cs σ₂ ∧
      (s.membersOf q T).run σ = .ok (joinContributions cs, σ₂) := by
  have hends : (Query.members s q).Ends T σ := Query.ends_of_faithful hq T hσ
  obtain ⟨⟨ms, σ₂⟩, hrun, hbound⟩ := hends.answer
  have hmems : D.Runs (n + 2) T (Search.about (.members s q)) σ ms σ₂ :=
    ⟨hq, hσ, hbound _ (Nat.le_add_right_of_le hn)⟩
  have hsrch := hmems.search_of_about (by rintro ⟨p, hp, -⟩; cases hp) rfl
  rw [Question.search, membersSearch_of_open h] at hsrch
  obtain ⟨fs, σ₁, hname, hsrch⟩ := hsrch.bind
  obtain ⟨cs, σ₃, hcs, hsrch⟩ := hsrch.bind
  obtain ⟨rfl, rfl⟩ := hsrch.eq_of_pure
  exact ⟨fs, σ₁, cs, _, Realm.Runs.query (Q := .lookup s .types q) hname (Nat.le_succ_of_le hn), hcs, hrun⟩

/-- **The members of a name that denotes one interface or class** are its own, and of those that it
inherits the first of each name that it does not declare. -/
theorem Realm.members_of_heritage {D : Realm} {T : Trail} {σ σ₁ : Session}
    (hq : (Query.members s q).In D) (hσ : σ.Faithful D) (hf : (s.lookupType q T).run σ = .ok ([f], σ₁))
    (hopen : f.pair ∉ T) (hown : f.decl.heritage? = some (own, ps)) :
    ∃ n inherited σ₂, f.inner.searchBound 1 ≤ n ∧
      D.Runs n (f.pair :: T) (concatMapM (membersOfParent f.inner) ps) σ₁ inherited σ₂ ∧
      (s.membersOf q T).run σ = .ok (some (own ++ firstOfName (undeclared own inherited)), σ₂) := by
  -- A bound that is above those of all searches in sight.
  obtain ⟨n, hs, hinner⟩ : ∃ n, s.searchBound 1 ≤ n ∧ f.inner.searchBound 1 ≤ n :=
    ⟨_, Nat.le_max_left _ _, Nat.le_max_right _ _⟩
  have hplain : (QIdent.isPrimitive q || s.isAbstract q) = false := by
    have hset := isSettled_of_found hf
    simp only [Scope.isSettled, Bool.or_eq_false_iff] at hset ⊢
    exact ⟨hset.1.2, hset.2⟩
  obtain ⟨fs, σ₁', cs, σ₂, hlook, hcs, hrun⟩ := Realm.members_of_types hq hσ hplain hs
  -- The name denotes one declaration, which is asked for what it contributes.
  cases hf.symm.trans hlook
  obtain ⟨cs, σ₃, hcs, hrest⟩ := hcs.bind
  obtain ⟨none, σ₄, hrest, hsum⟩ := hrest.bind
  obtain ⟨rfl, rfl⟩ := hrest.eq_of_pure
  obtain ⟨rfl, rfl⟩ := hsum.eq_of_pure
  have hctb := hcs.search_of_about (by rintro ⟨p, hp, hT⟩; cases hp; exact hopen hT) rfl
  rw [Question.search, contributionSearch_heritage hown] at hctb
  obtain ⟨inherited, σ₃, hpars, hdone⟩ := hctb.bind
  obtain ⟨rfl, rfl⟩ := hdone.eq_of_pure
  refine ⟨n, inherited, _, hinner, hpars, ?_⟩
  have hjoin : joinContributions [⟨true, own, inherited⟩] =
      some (own ++ firstOfName (undeclared own inherited)) := by
    rw [← foldl_inheritMember]
    simp [joinContributions]
  rw [← hjoin]
  exact hrun

/-- **What is inherited from one type.** If a name denotes one interface or class, which inherits from one
type alone, then its members are its own, followed by the first of each name, among those of that type, that
it does not declare. These are all that it does not declare if and only if no two of them have the same name:
of several overloads that are inherited only one is kept. -/
theorem membersOf_single_parent {D : Realm} {s : Scope} {q : QIdent} {T : Trail} {σ σ₁ : Session}
    (hq : (Query.members s q).In D) (hσ : σ.Faithful D) {f : Found}
    (hf : (s.lookupType q T).run σ = .ok ([f], σ₁)) (hopen : f.pair ∉ T) {own : List Member} {p : Ty}
    (hown : f.decl.heritage? = some (own, [p])) :
    ∃ inherited σ₂, (f.inner.inheritedFrom p (f.pair :: T)).run σ₁ = .ok (inherited, σ₂) ∧
      (s.membersOf q T).run σ = .ok (some (own ++ firstOfName (undeclared own inherited)), σ₂) ∧
      ((s.membersOf q T).run σ = .ok (some (own ++ undeclared own inherited), σ₂) ↔
        OneOfName (undeclared own inherited)) := by
  obtain ⟨n, inherited, σ₂, hn, hparents, hmembers⟩ := Realm.members_of_heritage hq hσ hf hopen hown
  refine ⟨inherited, σ₂, ?_, hmembers, ?_⟩
  · have hparent := hparents.parents hn
    simp only [concatMapM, StateT.run_bind] at hparent
    cases hp : (f.inner.inheritedFrom p (f.pair :: T)).run σ₁ with
    | error e => rw [hp] at hparent; cases hparent
    | ok r =>
      rw [hp] at hparent
      cases hparent
      simp
  · rw [hmembers, ← firstOfName_eq_self_iff]
    simp

/-- `interface A { f(x: string): string; f(x: number): number; g: number }` and
`interface B extends A { g: string }`. -/
def overloading : Library where
  name := "lib"
  deps := []
  file := File.ofMembers "lib"
    [.iface ⟨{}, true, "A", [], [],
      [.ofSignature "f" (.ofParams [.ofType "x" .string] (some .string)),
        .ofSignature "f" (.ofParams [.ofType "x" .number] (some .number)),
        .ofType "g" .number], .noPath⟩,
    .iface ⟨{}, true, "B", [], [.reference ["A"] []], [.ofType "g" .string], .noPath⟩]

def overloadingScope : Scope :=
  (Scope.ofRoot (overloading.root false)).enter (.file overloading.numbered)

/-- Of the two overloads of `f` that `B` inherits it has one. -/
theorem membersOf_single_parent_overloads :
    ∃ f own p inherited σ, (overloadingScope.lookupType ["B"] []).run {} = .ok ([f], {}) ∧
      f.decl.heritage? = some (own, [p]) ∧
      (f.inner.inheritedFrom p [f.pair]).run {} = .ok (inherited, σ) ∧
      (overloadingScope.membersOf ["B"] []).run {} =
        .ok (some (own ++ firstOfName (undeclared own inherited)), σ) ∧
      (own ++ firstOfName (undeclared own inherited)).map (·.name?) = [some "g", some "f"] ∧
      (own ++ undeclared own inherited).map (·.name?) = [some "g", some "f", some "f"] ∧
      ¬ OneOfName (undeclared own inherited) := by
  obtain ⟨f, own, p, hf, hown, hall⟩ : ∃ f own p,
      (overloadingScope.lookupType ["B"] []).run {} = .ok ([f], {}) ∧
      f.decl.heritage? = some (own, [p]) ∧
      ((f.inner.inheritedFrom p [f.pair]).run {}).toOption.map
        (fun r => (own ++ undeclared own r.1).map (·.name?)) = some [some "g", some "f", some "f"] := by
    refine ⟨⟨overloading.numbered.members.get ⟨1, by decide +kernel⟩, overloadingScope⟩, _, _, ?_, rfl, ?_⟩
    · rfl
    · decide +kernel
  obtain ⟨inherited, σ, hinherited, hmembers, hkept⟩ := membersOf_single_parent
    (Query.members overloadingScope ["B"]).in_territory (Session.faithful_of_none _ rfl) hf
    List.not_mem_nil hown
  have hone : ((overloadingScope.membersOf ["B"] []).run {}).toOption.map
      (fun r => (r.1.getD []).map (·.name?)) = some [some "g", some "f"] := by decide +kernel
  rw [hinherited] at hall
  have hlost : ¬ OneOfName (undeclared own inherited) := by
    intro h
    rw [hkept.2 h] at hone
    cases (Option.some.inj hall).symm.trans (Option.some.inj hone)
  rw [hmembers] at hone
  exact ⟨f, own, p, inherited, σ, hf, hown, hinherited, hmembers, Option.some.inj hone,
    Option.some.inj hall, hlost⟩

end Ambient
