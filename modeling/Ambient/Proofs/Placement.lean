import Ambient.Pass.Interfaces
import Ambient.Proofs.Equal
import Ambient.Proofs.FreeParams

/-!
# Where an interface goes and what it is called

What one call of `placement?` does, in a territory whose names are all allowed and with a memory
that is faithful to it.

The interface goes into one of the containers around the literal. If that is not the innermost one,
then every name that the interface mentions, apart from its own type parameters, denotes the same
declarations there as where the literal stands. Its name denotes nothing where the literal stands, and
no interface that waits for a container further in has it (`Placed`, `yields_placement`).
-/

namespace Ambient

/-! ## What a search yields -/

/-- If the computation ends well, its result is as `post` says and the memory stays faithful. -/
def Yields (D : Realm) {α : Type} (x : Resolve α) (post : α → Prop) : Prop :=
  ∀ σ a σ', σ.Faithful D → x.run σ = .ok (a, σ') → post a ∧ σ'.Faithful D

namespace Yields

variable {D : Realm} {α β : Type} {post : α → Prop} {post' : β → Prop}

theorem pure {a : α} (h : post a) : Yields D (pure a) post := by
  intro σ b σ' hσ hrun
  cases hrun
  exact ⟨h, hσ⟩

theorem bind {x : Resolve α} {f : α → Resolve β} (hx : Yields D x post)
    (hf : ∀ a, post a → Yields D (f a) post') : Yields D (x >>= f) post' := by
  intro σ b σ' hσ hrun
  rw [StateT.run_bind] at hrun
  obtain ⟨r, hr, hrun⟩ := bind_eq_ok.1 hrun
  obtain ⟨hpost, hfai⟩ := hx σ r.1 r.2 hσ hr
  exact hf r.1 hpost r.2 b σ' hfai hrun

theorem mono {x : Resolve α} {post' : α → Prop} (hx : Yields D x post)
    (h : ∀ a, post a → post' a) : Yields D x post' :=
  fun σ a σ' hσ hrun => (hx σ a σ' hσ hrun).imp_left (h a)

theorem exhausted : Yields D (Resolve.exhausted : Resolve α) post := by
  intro σ a σ' _ hrun
  cases hrun

end Yields

/-! ## Names -/

section
variable {D : Realm} {P : Ident → Prop} {isFree : Ident → Resolve Bool}

theorem yields_firstFree (h : ∀ x, Yields D (isFree x) fun b => b = true → P x) (xs : List Ident) :
    Yields D (firstFree isFree xs) fun r => ∀ x, r = some x → P x := by
  induction xs with
  | nil => exact .pure fun _ h => nomatch h
  | cons x xs ih =>
    refine (h x).bind fun b hb => ?_
    cases b with
    | true => exact .pure fun y hy => Option.some.inj hy ▸ hb rfl
    | false => exact ih

theorem yields_firstFreeNumbered (h : ∀ x, Yields D (isFree x) fun b => b = true → P x)
    (stem : String) (limit first : Nat) :
    Yields D (firstFreeNumbered isFree stem first limit) fun r => ∀ x, r = some x → P x := by
  induction limit generalizing first with
  | zero => exact .pure fun _ h => nomatch h
  | succ limit ih =>
    refine (h _).bind fun b hb => ?_
    cases b with
    | true => exact .pure fun y hy => Option.some.inj hy ▸ hb rfl
    | false => exact ih _

theorem yields_deriveName (h : ∀ x, Yields D (isFree x) fun b => b = true → P x) (limit : Nat)
    (stem : String) (ms : List Member) :
    Yields D (deriveName isFree limit stem ms) fun r => ∀ x, r = some x → P x := by
  refine (yields_firstFree h _).bind fun r hr => ?_
  cases r with
  | some x => exact .pure hr
  | none => exact yields_firstFreeNumbered h _ _ _

end

/-! ## Containers -/

/-- The name denotes the same declarations in both scopes. -/
def SameMeaning (s c : Scope) (q : QIdent) : Prop :=
  (s.meaning q).map (·.decl.id) = (c.meaning q).map (·.decl.id)

/-- A territory that allows all names in its scopes. -/
def Territory.AllNames (T : Territory) : Prop := ∀ s q, T.scope s → T.name s q

variable {s : Scope}

section
variable {T : Territory} (hT : T.Numbered) (hall : T.AllNames)
include hT hall

theorem yields_lookup (hs : T.scope s) (q : QIdent) :
    Yields T.realm (Resolve.afresh (s.lookupWith .all q [])) (· = s.meaning q) := by
  intro σ fs σ' hσ hrun
  obtain ⟨σ₁, hrun₁, hσ₁⟩ := lookup_meaning hT hs (hall s q hs) hσ
  cases hrun₁.symm.trans hrun
  exact ⟨rfl, hσ₁⟩

theorem yields_sameMeaning {c : Scope} (hs : T.scope s) (hc : T.scope c) (q : QIdent) :
    Yields T.realm (sameMeaning s c q) fun b => b = true → SameMeaning s c q := by
  refine (yields_lookup hT hall hs q).bind fun here hhere => ?_
  refine (yields_lookup hT hall hc q).bind fun there hthere => .pure fun hb => ?_
  subst hhere hthere
  exact eq_of_beq hb

theorem yields_sameMeanings {c : Scope} (hs : T.scope s) (hc : T.scope c) (qs : List QIdent) :
    Yields T.realm (sameMeanings s c qs) fun b => b = true → ∀ q ∈ qs, SameMeaning s c q := by
  induction qs with
  | nil => exact .pure fun _ q hq => absurd hq List.not_mem_nil
  | cons q qs ih =>
    refine (yields_sameMeaning hT hall hs hc q).bind fun b hb => ?_
    cases b with
    | false => exact .pure fun h => nomatch h
    | true => exact ih.mono fun b h ht => List.forall_mem_cons.2 ⟨hb rfl, h ht⟩

/-- The chain of containers only grows outwards, by containers in which all names denote the same as at
`s`, and not over one for which an interface of such a name waits. -/
theorem yields_placeInterface (pending : PendingByScope) (hs : T.scope s) (names : List QIdent)
    (inner outer : List Scope) (houter : ∀ c ∈ outer, T.scope c) :
    Yields T.realm (placeInterface pending s names inner outer) fun chain =>
      ∃ passed rest, chain = inner ++ passed ∧ outer = passed ++ rest ∧
        (∀ c ∈ passed, ∀ q ∈ names, SameMeaning s c q) ∧
        (passed ≠ [] → ∀ q ∈ names, ∀ x ∈ q.head?, pending.isTaken chain.dropLast x = false) := by
  induction outer generalizing inner with
  | nil => exact .pure ⟨[], [], by simp⟩
  | cons c outer ih =>
    have hstay : Yields T.realm (pure inner) fun chain => ∃ passed rest,
        chain = inner ++ passed ∧ c :: outer = passed ++ rest ∧
          (∀ c ∈ passed, ∀ q ∈ names, SameMeaning s c q) ∧
          (passed ≠ [] → ∀ q ∈ names, ∀ x ∈ q.head?, pending.isTaken chain.dropLast x = false) :=
      .pure ⟨[], c :: outer, by simp⟩
    rw [placeInterface]
    split
    · exact hstay
    · rename_i hfree
      refine (yields_sameMeanings hT hall hs (houter c (.head _)) names).bind fun b hb => ?_
      cases b with
      | false => exact hstay
      | true =>
        refine (ih _ fun c hc => houter c (.tail _ hc)).mono ?_
        rintro chain ⟨passed, rest, rfl, rfl, hpsd, htaken⟩
        refine ⟨c :: passed, rest, by simp, rfl, List.forall_mem_cons.2 ⟨hb rfl, hpsd⟩, ?_⟩
        intro _ q hq x hx
        by_cases hnil : passed = []
        · subst hnil
          simp only [List.any_eq_true, not_exists, not_and, Bool.not_eq_true] at hfree
          simpa [Option.mem_def.1 hx] using hfree q hq
        · exact htaken hnil q hq x hx

theorem yields_isVisible (hs : T.scope s) (x : Ident) :
    Yields T.realm (isVisible s x) fun b => b = false → s.meaning [x] = [] := by
  refine (yields_lookup hT hall hs [x]).bind fun fs hfs => .pure fun hb => ?_
  subst hfs
  simpa using hb

/-- An interface is used again if it says the same, waits for the container, and its name is bound
neither at `s` nor by what waits further in. -/
theorem yields_reusable (pending : PendingByScope) (hs : T.scope s) (inner : List Scope)
    (container : Scope) (tparams : List TypeParam) (ms : List Member) :
    Yields T.realm (reusable? pending s inner container tparams ms) fun r => ∀ i, r = some i →
      i ∈ pending.waiting container ∧ (i.tparams == tparams) = true ∧ (i.members == ms) = true ∧
        s.meaning [i.name] = [] ∧ pending.isTaken inner i.name = false := by
  unfold reusable?
  split
  · exact .pure fun _ h => nomatch h
  · rename_i i hi
    refine (yields_isVisible hT hall hs i.name).bind fun b hb => ?_
    split
    · exact .pure fun _ h => nomatch h
    · rename_i hfree
      simp only [Bool.or_eq_true, not_or, Bool.not_eq_true] at hfree
      refine .pure fun j hj => ?_
      cases hj
      have hsame := List.find?_some hi
      rw [Bool.and_eq_true] at hsame
      exact ⟨List.mem_of_find?_eq_some hi, hsame.1, hsame.2, hb hfree.1, hfree.2⟩

theorem yields_newName (stem : String) (pending : PendingByScope) (hs : T.scope s) (comments : Comments)
    (ms : List Member) :
    Yields T.realm (newName stem pending s comments ms) fun x =>
      s.meaning [x] = [] ∧ pending.isTaken s.containers x = false := by
  have hfree : ∀ x, Yields T.realm (do
      if pending.isTaken s.containers x then return false
      return !(← isVisible s x)) fun b =>
        b = true → s.meaning [x] = [] ∧ pending.isTaken s.containers x = false := by
    intro x
    split
    · exact .pure fun h => nomatch h
    · rename_i htaken
      refine (yields_isVisible hT hall hs x).bind fun b hb => .pure fun h => ?_
      exact ⟨hb (by simpa using h), by simpa using htaken⟩
  unfold newName
  cases comments.nameHint? with
  | none =>
    refine (yields_deriveName hfree _ stem ms).bind fun r hr => ?_
    cases r with
    | some x => exact .pure (hr x rfl)
    | none => exact .exhausted
  | some hint =>
    refine (hfree hint).bind fun b hb => ?_
    cases b with
    | true => exact .pure (hb rfl)
    | false =>
      refine (yields_deriveName hfree _ hint ms).bind fun r hr => ?_
      cases r with
      | some x => exact .pure (hr x rfl)
      | none => exact .exhausted

end

/-! ## One extraction -/

/-- The interface was made of the members and type parameters of a literal, for the container `c`. -/
structure InterfaceDecl.Spells (i : InterfaceDecl) (c : Scope) (ms : List Member)
    (tparams : List TypeParam) : Prop where
  unnumbered : i.info.id = 0
  members : i.members = ms
  tparams : i.tparams = tparams
  inheritance : i.inheritance = []
  codePath : i.codePath = c.codePath.add i.name

/-- The interface stands for a literal with the given members and type parameters at `s`, and waits for
one of the containers around. -/
structure Placed (s : Scope) (ms : List Member) (tparams : List TypeParam)
    (pending pending' : PendingByScope) (p : Placement) : Prop where
  containers : ∃ outer, s.containers = p.inner ++ p.container :: outer
  sameMembers : (p.interface.members == ms) = true
  sameParams : (p.interface.tparams == tparams) = true
  meanings : p.inner ≠ [] → ∀ q ∈ namesMentioned tparams ms, SameMeaning s p.container q
  free : ∀ q ∈ namesMentioned tparams ms, ∀ x ∈ q.head?, pending.isTaken p.inner x = false
  unbound : s.meaning [p.interface.name] = []
  nearer : pending.isTaken p.inner p.interface.name = false
  waits : (pending' = pending ∧ p.interface ∈ pending.waiting p.container) ∨
    (pending' = pending.add p.container p.interface ∧
      pending.isTaken s.containers p.interface.name = false ∧
      p.interface.Spells p.container ms tparams)

theorem PendingByScope.isTaken_append {pending : PendingByScope} {cs ds : List Scope} {x : Ident} :
    pending.isTaken (cs ++ ds) x = (pending.isTaken cs x || pending.isTaken ds x) :=
  List.any_append

theorem placeLiteral_run (stem : String) (s : Scope) (comments : Comments) (ms : List Member)
    (tparams : List TypeParam) (pending : PendingByScope) :
    (placeLiteral stem s comments ms tparams).run pending = (do
      let chain ← placeInterface pending s (namesMentioned tparams ms) (s.containers.take 1)
        (s.containers.drop 1)
      let c := chain.getLast?.getD s
      match ← reusable? pending s chain.dropLast c tparams ms with
      | some i => return (⟨chain.dropLast, c, i⟩, pending)
      | none => do
        let x ← newName stem pending s comments ms
        let i := ⟨{ comments := comments }, true, x, tparams, [], ms, c.codePath.add x⟩
        return (⟨chain.dropLast, c, i⟩, pending.add c i)) := by
  simp only [placeLiteral, StateT.run_bind, StateT.run_get, StateT.run_monadLift, monadLift_self,
    bind_assoc, pure_bind]
  refine bind_congr (m := Resolve) fun chain => bind_congr (m := Resolve) fun r => ?_
  cases r with
  | some i => rfl
  | none => simp

section
variable {T : Territory} (hT : T.Numbered) (hall : T.AllNames)
include hT hall

theorem yields_placeLiteral (stem : String) (hs : T.scope s) (comments : Comments) (ms : List Member)
    (tparams : List TypeParam) (hc : s.containers ≠ []) (pending : PendingByScope) :
    Yields T.realm ((placeLiteral stem s comments ms tparams).run pending) fun r =>
      Placed s ms tparams pending r.2 r.1 := by
  have hscs : ∀ c ∈ s.containers.drop 1, T.scope c := by
    intro c h
    obtain ⟨hc, hcont⟩ := List.mem_filter.1 (List.mem_of_mem_drop h)
    exact T.container hs hc hcont
  obtain ⟨c₀, cs, hcs⟩ := List.exists_cons_of_ne_nil hc
  have hplace := yields_placeInterface hT hall pending hs (namesMentioned tparams ms)
    (s.containers.take 1) (s.containers.drop 1) hscs
  rw [placeLiteral_run]
  refine hplace.bind ?_
  rintro chain ⟨passed, rest, rfl, hrest, hpsd, htaken⟩
  obtain ⟨inner, c, hchain, hmean, hfree⟩ :
      ∃ inner c, s.containers.take 1 ++ passed = inner ++ [c] ∧
        (inner ≠ [] → ∀ q ∈ namesMentioned tparams ms, SameMeaning s c q) ∧
        ∀ q ∈ namesMentioned tparams ms, ∀ x ∈ q.head?, pending.isTaken inner x = false := by
    rw [hcs, List.take_succ_cons, List.take_zero] at htaken ⊢
    rcases List.eq_nil_or_concat passed with rfl | ⟨init, c, rfl⟩
    · exact ⟨[], c₀, rfl, fun h => absurd rfl h, fun _ _ _ _ => rfl⟩
    · have hlast : ([c₀] ++ init.concat c).dropLast = c₀ :: init := by
        rw [List.concat_eq_append, ← List.append_assoc, List.dropLast_concat, List.singleton_append]
      exact ⟨c₀ :: init, c, by simp, fun _ => hpsd c (by simp),
        hlast ▸ htaken (by simp)⟩
  have hconts : s.containers = inner ++ c :: rest := by
    have htake := (List.take_append_drop 1 s.containers).symm
    rw [hrest, ← List.append_assoc, hchain] at htake
    simpa using htake
  simp only [hchain, List.getLast?_concat, Option.getD_some, List.dropLast_concat]
  refine (yields_reusable hT hall pending hs inner c tparams ms).bind fun r hr => ?_
  cases r with
  | some i =>
    obtain ⟨hi, hps, hms, hunb, hnear⟩ := hr i rfl
    exact .pure
      { containers := ⟨rest, hconts⟩
        sameMembers := hms
        sameParams := hps
        meanings := hmean
        free := hfree
        unbound := hunb
        nearer := hnear
        waits := .inl ⟨rfl, hi⟩ }
  | none =>
    refine (yields_newName hT hall stem pending hs comments ms).bind fun x hx => ?_
    have hnear : pending.isTaken inner x = false := by
      have htaken := hx.2
      rw [hconts, PendingByScope.isTaken_append, Bool.or_eq_false_iff] at htaken
      exact htaken.1
    exact .pure
      { containers := ⟨rest, hconts⟩
        sameMembers := BEq.rfl
        sameParams := BEq.rfl
        meanings := hmean
        free := hfree
        unbound := hx.1
        nearer := hnear
        waits := .inr ⟨rfl, hx.2, ⟨rfl, rfl, rfl, rfl, rfl⟩⟩ }

/-- **What one extraction does**: nothing, or an interface that stands for the literal is well placed. -/
theorem yields_placement (stem : String) (hs : T.scope s) (t : Ty) (pending : PendingByScope) :
    Yields T.realm ((placement? stem s t).run pending) fun r => r = (none, pending) ∨
      ∃ info ms p, t = .object info ms ∧ r.1 = some p ∧
        Placed s ms (s.paramsOf t) pending r.2 p := by
  unfold placement?
  split
  · rename_i info ms
    split
    · exact .pure (.inl rfl)
    · rename_i hcond
      simp only [Bool.or_eq_true, not_or, List.isEmpty_iff] at hcond
      rw [StateT.run_bind]
      refine (yields_placeLiteral hT hall stem hs _ ms _ hcond.2 pending).bind ?_
      rintro ⟨p, pending'⟩ hplc
      exact .pure (.inr ⟨info, ms, p, rfl, rfl, hplc⟩)
  · exact .pure (.inl rfl)

end

end Ambient
