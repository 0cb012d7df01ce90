import Ambient.Proofs.Failures
import Ambient.Proofs.Forgetful
import Ambient.Proofs.Leaves

/-!
# The keys of mapped types

Without a memory, the keys that a type stands for only depend on the trail (`Scope.keysOn`).

* `Scope.keysOn_nodup`: no key comes twice, since every search that gives keys removes repetitions or has
  its answer from one that does (`clear`).
* `Scope.keysOn_union`: a union stands for the keys of all its members.
* `expandMapped_expands`: a mapped type over known keys becomes an object type with one property for each.
  In the types of the properties, nothing but indexed accesses is replaced (`accessing`).
-/

namespace Ambient

/-! ## No key comes twice -/

/-- Keys that are given as the answer to a question are different. -/
def Question.Clear : (q : Question) → q.Answer → Prop
  | .keys _ _, a | .aliasKeys _ _, a => ∀ ks : List Ident, a = some ks → ks.Nodup
  | _, _ => True

theorem nodup_distinct (ks : List Ident) : (distinct ks).Nodup := by
  induction ks with
  | nil => exact .nil
  | cons k ks ih => exact .cons (by simp) (ih.filter _)

abbrev GivesClear (p : Search (Option (List Ident))) : Prop :=
  p.Ensures (fun _ => True) Question.Clear fun r => ∀ ks, r = some ks → ks.Nodup

variable {ks : List Ident} {n : Nat} {r : Option (List Ident)} {t : Ty}

theorem keysOfMembers_nodup {ms : List Member} (h : keysOfMembers ms = some ks) : ks.Nodup := by
  unfold keysOfMembers at h
  split at h
  · cases h
  · cases h
    exact nodup_distinct _

theorem keysOfTarget_clear (s : Scope) (t : Ty) : GivesClear (keysOfTarget s t) := by
  unfold keysOfTarget
  split
  · intro ks hks
    split at hks
    · cases hks
    · exact keysOfMembers_nodup hks
  · split
    · exact fun ks hks => by cases hks
    · refine .bind (.any _) fun ms _ ks hks => ?_
      obtain ⟨ms, -, hks⟩ := Option.bind_eq_some_iff.1 hks
      exact keysOfMembers_nodup hks
  · exact fun ks hks => by cases hks

theorem keysOfAliases_clear (fs : List Found) : GivesClear (keysOfAliases fs) := by
  induction fs with
  | nil => exact fun ks hks => by cases hks
  | cons f fs ih =>
    have halias : GivesClear (keysOfAlias f) := by
      unfold keysOfAlias
      split
      · split
        · exact ⟨trivial, fun _ h => h⟩
        · exact fun ks hks => by cases hks
      · exact fun ks hks => by cases hks
    refine halias.bind fun r hr => ?_
    cases r with
    | none => exact ih
    | some ks => exact hr

theorem keysSearch_clear (s : Scope) (t : Ty) : GivesClear (keysSearch s t) := by
  unfold keysSearch
  split
  · intro ks hks
    obtain ⟨k, -, rfl⟩ := Option.map_eq_some_iff.1 hks
    exact List.nodup_singleton k
  · refine .bind (.any _) fun r _ ks hks => ?_
    obtain ⟨ls, -, rfl⟩ := Option.map_eq_some_iff.1 hks
    exact nodup_distinct ls
  · exact keysOfTarget_clear s _
  · split
    · exact fun ks hks => by cases hks
    · exact .bind (.any _) fun fs _ => keysOfAliases_clear fs
  · exact fun ks hks => by cases hks

/-- The realm of all questions, in which keys are different. -/
def clear : Realm where
  asked _ := True
  given := Question.Clear
  search q _ := by
    cases q with
    | keys s t => exact keysSearch_clear s t
    | aliasKeys f t => exact ⟨trivial, fun _ h => h⟩
    | _ => exact .any _
  unanswered q _ := by
    cases q with
    | keys | aliasKeys => exact fun ks hks => by cases hks
    | _ => trivial

/-! ## The keys on a trail -/

section
variable (s : Scope) (trail : Trail)

/-- The keys that a type stands for in a search with that trail and without a memory. -/
def Scope.keysOn (t : Ty) : Option (List Ident) :=
  (answerOn (s.searchBound t.links) trail (.keys s t)).getD none

theorem Scope.answerOn_keysOn (t : Ty) :
    answerOn (s.searchBound t.links) trail (.keys s t) = some (s.keysOn trail t) := by
  obtain ⟨⟨a, σ⟩, hrun, -⟩ := ((queries_end (.keys s t) trail).1 0).answer
  have hans := answerOn_of_run rfl hrun
  rw [keysOn, hans, Option.getD_some]

theorem Scope.evaluateKeys_gives (t : Ty) : (s.evaluateKeys t trail).Gives (some (s.keysOn trail t)) := by
  rw [← s.answerOn_keysOn trail t]
  exact answerWithin_gives _ trail (.keys s t)

variable {s trail}

theorem Scope.keysOn_eq (h : answerOn n trail (.keys s t) = some r) : s.keysOn trail t = r :=
  Option.some.inj ((answerOn_mono (Nat.le_max_right n _) (s.answerOn_keysOn trail t)).symm.trans
    (answerOn_mono (Nat.le_max_left n _) h))

theorem Scope.keysOn_nodup (h : s.keysOn trail t = some ks) : ks.Nodup :=
  clear.given_of_answerOn (q := .keys s t) trivial (s.answerOn_keysOn trail t) ks h

theorem keysOfUnion_run {ts : List Ty} (h : (keysOfUnion s ts).run (answerOn n trail) = some r) :
    r = (ts.mapM (s.keysOn trail)).map List.flatten := by
  induction ts generalizing r with
  | nil =>
    cases h
    rfl
  | cons t ts ih =>
    obtain ⟨a, ha, h⟩ := Option.bind_eq_some_iff.1 h
    rw [List.mapM_cons, Scope.keysOn_eq ha]
    cases a with
    | none =>
      cases h
      rfl
    | some ks =>
      obtain ⟨ls, hls, h⟩ := Option.bind_eq_some_iff.1
        ((Search.run_bind (answerOn n trail) (keysOfUnion s ts) _).symm.trans h)
      have htail := ih hls
      cases hmap : ts.mapM (s.keysOn trail) with
      | none =>
        rw [hmap] at htail
        subst htail
        cases h
        rfl
      | some kss =>
        rw [hmap] at htail
        subst htail
        cases h
        rfl

theorem Scope.keysOn_open (s : Scope) (trail : Trail) (t : Ty) (hopen : ¬ (Question.keys s t).CutOn trail) :
    ∃ n, (keysSearch s t).run (answerOn n trail) = some (s.keysOn trail t) := by
  have hans := s.answerOn_keysOn trail t
  obtain ⟨n, hn⟩ : ∃ n, s.searchBound t.links = n + 1 := ⟨_, rfl⟩
  rw [hn, answerOn_open hopen] at hans
  exact ⟨n, hans⟩

theorem Scope.keysOn_literal (i : NodeId) (k : String) : s.keysOn trail (.literal i (.str k)) = some [k] := by
  obtain ⟨n, hans⟩ := s.keysOn_open trail (.literal i (.str k)) (by rintro ⟨_, hp, -⟩; cases hp)
  exact (Option.some.inj hans).symm

/-- **A union stands for the keys of its members**, each once. -/
theorem Scope.keysOn_union (i : NodeId) (ts : List Ty) : s.keysOn trail (.union i ts) =
    (ts.mapM (s.keysOn trail)).map fun kss => firsts kss.flatten := by
  obtain ⟨n, hans⟩ := s.keysOn_open trail (.union i ts) (by rintro ⟨_, hp, -⟩; cases hp)
  obtain ⟨r, hr, hkeys⟩ := Option.bind_eq_some_iff.1
    ((Search.run_bind (answerOn n trail) (keysOfUnion s ts) _).symm.trans hans)
  rw [← Option.some.inj hkeys, keysOfUnion_run hr, Option.map_map]
  simp only [Function.comp_def, distinct_eq_firsts]

end

/-! ## Expansions -/

/-- Computations without a memory. -/
def memoryless : Logic Resolve where
  World := Unit
  le _ _ := True
  refl _ := trivial
  trans _ _ := trivial
  ends _ x P := ∃ a, x.Gives (some a) ∧ P a ()
  pure h := ⟨_, fun σ hσ => ⟨σ, hσ, rfl⟩, h⟩
  bind hx hf := by
    obtain ⟨a, ha, hP⟩ := hx
    obtain ⟨b, hb, hQ⟩ := hf a () trivial hP
    refine ⟨b, fun σ hσ => ?_, hQ⟩
    obtain ⟨σ₁, hσ₁, hrun⟩ := ha σ hσ
    rw [StateT.run_bind, hrun]
    exact hb σ₁ hσ₁

theorem Resolve.Gives.afresh {α : Type} {x : Resolve α} {a : α} (h : x.Gives (some a)) :
    (Resolve.afresh x).Gives (some a) := by
  intro σ hσ
  obtain ⟨σ', hσ', hrun⟩ := h { σ with cuts := 0 } hσ
  exact ⟨{ σ' with cuts := σ.cuts }, hσ', by rw [afresh_run, hrun]; rfl⟩

/-- Nothing but indexed accesses is replaced. -/
def accessing : Rewriting Unit :=
  .ofTypes (fun _ _ => ()) fun _ t t' => t' = t ∨ ∃ i u k, t = .lookup i u k

/-- The member is the property that the rule makes for a key: its type is that of the rule with the key put
in and some indexed accesses resolved. -/
def MappedMember.MakesFor (m : MappedMember) (key : Ident) (x : Member) : Prop :=
  ∃ u, x = .property ⟨{}, m.level, key, some (m.optionalize.apply u), none, false, m.readonly == .yes⟩ ∧
    (Node.ty (Substitution.inTy [(.ref {} [m.key] [], .literal 0 (.str key))] m.target).value).Rewritten
      accessing () (.ty u)

/-- What takes the place of a type, if the keys are as `keys` says: a mapped type without an `as` clause
over known keys becomes an object type with a property for each key. -/
inductive Ty.Expands (keys : Ty → Option (List Ident)) : Ty → Option Ty → Prop
  | mapped {i : NodeInfo} {m : MappedMember} {ks : List Ident} {ms : List Member} (has : m.asName = none)
    (hks : keys m.source = some ks) (hms : List.Forall₂ m.MakesFor ks ms) :
    Expands keys (.object i [.mapped m]) (some (.object (i.withComments (i.comments ++ m.info.comments)) ms))
  | other {t : Ty} (h : ∀ i m, t = .object i [.mapped m] → m.asName = none → keys m.source = none) :
    Expands keys t none

theorem accessedType?_memoryless (s : Scope) (t : Ty) : memoryless.ends () (accessedType? s t) fun r _ =>
    r.getD t = t ∨ ∃ i u k, t = .lookup i u k := by
  unfold accessedType?
  split
  · exact .pure (.inr ⟨_, _, _, rfl⟩)
  · refine .bind (P := fun _ _ => True) ?_ fun _ _ _ _ => .pure (.inr ⟨_, _, _, rfl⟩)
    obtain ⟨⟨a, σ⟩, hrun, -⟩ := ((queries_end (.members s _) []).1 0).answer
    refine ⟨a, Resolve.Gives.afresh ?_, trivial⟩
    have hans := answerOn_of_run rfl hrun
    exact hans ▸ answerWithin_gives _ _ _
  · exact .pure (.inl rfl)

theorem MappedMember.propertiesFor_memoryless (s : Scope) (m : MappedMember) (ks : List Ident) :
    memoryless.ends () (m.propertiesFor s ks) fun ms _ => List.Forall₂ m.MakesFor ks ms := by
  have hacts : (accessHooks s).Acts memoryless (fun _ _ => True) accessing :=
    leaveTy_acts memoryless (fun _ _ => trivial) fun t' _ => accessedType?_memoryless s t'
  induction ks with
  | nil => exact .pure .nil
  | cons k ks ih =>
    refine .bind (P := fun x _ => m.MakesFor k x) ?_ fun x _ _ hx => ?_
    · refine .bind (walkTy_builds hacts.builds _ trivial ()) fun e _ _ he => ?_
      exact .pure ⟨e.value, rfl, he⟩
    · exact .bind ih fun ms _ _ hms => .pure (.cons hx hms)

/-- **A mapped type is expanded exactly if its keys are known**, to a property for each. -/
theorem expandMapped_expands (s : Scope) (t : Ty) :
    memoryless.ends () (expandMapped s t) fun r _ => t.Expands (s.keysOn []) r := by
  unfold expandMapped
  split
  · rename_i i m
    split
    · rename_i has
      refine .pure (.other fun i' m' ht has' => ?_)
      cases ht
      rw [has'] at has
      cases has
    · rename_i has
      refine .bind (P := fun keys _ => keys = s.keysOn [] m.source)
        ⟨_, (s.evaluateKeys_gives [] m.source).afresh, rfl⟩ fun keys _ _ hkeys => ?_
      cases keys with
      | none =>
        refine .pure (.other fun i' m' ht _ => ?_)
        cases ht
        exact hkeys.symm
      | some ks =>
        refine .bind (m.propertiesFor_memoryless s ks) fun ms _ _ hms => .pure ?_
        exact .mapped (by simpa using has) hkeys.symm hms
  · rename_i hnot
    exact .pure (.other fun i m ht _ => absurd ht (hnot i m))

/-- Every type is expanded as its keys are known where it stands. -/
def expanding : Rewriting Scope :=
  .ofTypes Scope.enter fun s t t' => ∃ r, t.Expands (s.keysOn []) r ∧ t' = r.getD t

theorem expandTypeMappings_rewritten (s : Scope) (f : File) : memoryless.ends () (expandTypeMappings s f)
    fun e _ => (Node.file f).Rewritten expanding s (.file e.value) := by
  have hacts : mappedHooks.Acts memoryless (fun _ _ => True) expanding :=
    leaveTy_acts memoryless (fun _ _ => trivial) fun t' _ =>
      memoryless.imp (expandMapped_expands _ t') fun r _ hr => ⟨r, hr, rfl⟩
  exact walkFile_rewritten hacts f trivial ()

theorem expandTypeMappings_runAnew {root : Root} {f : File} {e : Edited File}
    (h : (expandTypeMappings (.ofRoot root) (f.number root.deps.nextId).1).Gives (some e)) :
    Pass.expandTypeMappings.runAnew root false f = .ok e := by
  obtain ⟨σ, -, hrun⟩ := h { memo := none } rfl
  have hanew : Pass.expandTypeMappings.runAnew root false f =
      (expandTypeMappings (.ofRoot root) (f.number root.deps.nextId).1).run { memo := none } >>=
        fun r => pure r.1 := rfl
  rw [hanew, hrun]
  rfl

/-- **Key evaluation and expansion agree.** In every scope and on every trail, the keys of a type come to an
end without a memory, and no key comes twice. A union has keys exactly if all its members have, namely the
first occurrences among those of the members. A type is expanded exactly if it is a mapped type without an
`as` clause whose keys are known, to the object type with one property for each key, in their order, that
is not static and has no initialiser. And a run expands every type of a file so, from the inside out. -/
theorem keys_expand (s : Scope) (trail : Trail) :
    (∀ t, (s.evaluateKeys t trail).Gives (some (s.keysOn trail t)) ∧
      ∀ ks, s.keysOn trail t = some ks → ks.Nodup) ∧
    (∀ i ts, s.keysOn trail (.union i ts) =
      (ts.mapM (s.keysOn trail)).map fun kss => firsts kss.flatten) ∧
    (∀ t, ∃ r, (expandMapped s t).Gives (some r) ∧ t.Expands (s.keysOn []) r) ∧
    ∀ (root : Root) (f : File), ∃ e, Pass.expandTypeMappings.runAnew root false f = .ok e ∧
      (Node.file (f.number root.deps.nextId).1).Rewritten expanding (.ofRoot root) (.file e.value) := by
  refine ⟨fun t => ⟨s.evaluateKeys_gives trail t, fun ks hks => Scope.keysOn_nodup hks⟩,
    Scope.keysOn_union, expandMapped_expands s, fun root f => ?_⟩
  obtain ⟨e, hgives, hrewritten⟩ := expandTypeMappings_rewritten (.ofRoot root) (f.number root.deps.nextId).1
  exact ⟨e, expandTypeMappings_runAnew hgives, hrewritten⟩

/-- The keys of `"a" | "b" | "a"`. -/
theorem keys_expand_repeated :
    (Scope.ofRoot ((Library.mk "lib" (.ofMembers "lib" []) []).root false)).keysOn []
        (.union 0 [.literal 0 (.str "a"), .literal 0 (.str "b"), .literal 0 (.str "a")]) = some ["a", "b"] ∧
      (["a", "b"] : List Ident).Nodup := by
  obtain ⟨hkeys, hunion, -⟩ := keys_expand (.ofRoot ((Library.mk "lib" (.ofMembers "lib" []) []).root false)) []
  have hab : (Scope.ofRoot ((Library.mk "lib" (.ofMembers "lib" []) []).root false)).keysOn []
      (.union 0 [.literal 0 (.str "a"), .literal 0 (.str "b"), .literal 0 (.str "a")]) = some ["a", "b"] := by
    rw [hunion]
    simp only [List.mapM_cons, List.mapM_nil, Scope.keysOn_literal]
    decide
  exact ⟨hab, (hkeys _).2 _ hab⟩

end Ambient
