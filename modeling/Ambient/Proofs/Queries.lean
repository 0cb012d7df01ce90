import Ambient.Proofs.Reach

/-!
# Queries

What is asked from outside: the functions that start a search. Each is a search of its own
(`Query.run_eq`), which starts in a territory of finitely many pairs (`Query.territory`).

Main statement: every query comes to an end, on any trail (`queries_end`).
-/

namespace Ambient

/-- A function that starts a search, with its arguments. -/
inductive Query where
  | lookup (s : Scope) (picker : Picker) (q : QIdent)
  | imports (s : Scope) (d : Decl)
  | exports (s : Scope) (d : Decl)
  | exported (s : Scope)
  | keys (s : Scope) (t : Ty)
  | members (s : Scope) (q : QIdent)
  | ctors (s : Scope) (q : QIdent) (targs : List Ty)

namespace Query

abbrev Answer : Query → Type
  | .lookup _ _ _ => List Found
  | .imports _ _ | .exports _ _ | .exported _ => List Binding
  | .keys _ _ => Option (List Ident)
  | .members _ _ => Option (List Member)
  | .ctors _ _ _ => List Member

def run : (Q : Query) → Trail → Resolve Q.Answer
  | .lookup s picker q, T => s.lookupWith picker q T
  | .imports s d, T => s.expandImport d T
  | .exports s d, T => s.expandExport d T
  | .exported s, T => s.exportedBindings T
  | .keys s t, T => s.evaluateKeys t T
  | .members s q, T => s.membersOf q T
  | .ctors s q targs, T => s.ctorsOf q targs T

/-! ## Queries as searches -/

def search : (Q : Query) → Search Q.Answer
  | .lookup s picker q => Search.about (.name picker s q)
  | .imports s (.imports i) => Search.about (.imported s i)
  | .imports _ _ => .done []
  | .exports s (.exports h e) => Search.about (.exported s h e)
  | .exports _ _ => .done []
  | .exported s => exportedBy s
  | .keys s t => Search.about (.keys s t)
  | .members s q => Search.about (.members s q)
  | .ctors s q targs => Search.about (.ctors s q targs)

def start : Query → Start
  | .lookup s _ q | .members s q | .ctors s q _ => { scope := s, names := [q] }
  | .imports s d | .exports s d => { scope := s, decls := [d] }
  | .exported s => { scope := s }
  | .keys s t => { scope := s, tys := [t] }

def bound : Query → Nat
  | .imports s d | .exports s d => (s.enter (.decl d)).searchBound 0
  | Q => Q.start.scope.searchBound Q.start.links

theorem run_about (n : Nat) (T : Trail) (q : Question) :
    (Search.about q).run (answerWithin n T) = answerWithin n T q := by
  simp [Search.about, Search.run]

theorem run_eq (Q : Query) (T : Trail) : Q.run T = Q.search.run (answerWithin Q.bound T) := by
  cases Q with
  | imports s d =>
    cases d with
    | imports i => exact (run_about _ T (.imported s i)).symm
    | _ => rfl
  | exports s d =>
    cases d with
    | exports h e => exact (run_about _ T (.exported s h e)).symm
    | _ => rfl
  | exported s => rfl
  | lookup s picker q => exact (run_about _ T (.name picker s q)).symm
  | keys s t => exact (run_about _ T (.keys s t)).symm
  | members s q => exact (run_about _ T (.members s q)).symm
  | ctors s q targs => exact (run_about _ T (.ctors s q targs)).symm

/-! ## The territory of a query -/

def territory (Q : Query) : Territory := Q.start.territory

theorem scope_mem (S : Start) : S.territory.scope S.scope :=
  Start.mem_scopes.2 (.inl S.scope.self_mem_outwards)

theorem name_mem (S : Start) {q : QIdent} (h : q ∈ S.names) : S.territory.name S.scope q :=
  List.mem_append_left _ (List.mem_map_of_mem (List.mem_append_left _ h))

theorem stands_mem (S : Start) {d : Decl} (h : d ∈ S.decls) : S.territory.stands S.scope d :=
  Start.mem_places_of_opening
    (List.mem_append_left _ (List.mem_append_right _ (List.mem_map_of_mem h)))

theorem ty_mem (S : Start) {t : Ty} (h : t ∈ S.tys) : S.territory.ty S.scope t :=
  ⟨t, List.mem_append_left _ (List.mem_map_of_mem h), t.self_mem_branches⟩

theorem search_asks (Q : Query) : Q.territory.Asks Q.search := by
  have hs := scope_mem Q.start
  cases Q with
  | lookup s picker q =>
    exact .about ⟨hs, name_mem _ (.head _), False.elim⟩ fun _ _ => trivial
  | imports s d =>
    cases d with
    | imports i => exact .about ⟨hs, stands_mem _ (.head _)⟩ fun _ _ => trivial
    | _ => trivial
  | exports s d =>
    cases d with
    | exports h e => exact .about ⟨hs, stands_mem _ (.head _)⟩ fun _ _ => trivial
    | _ => trivial
  | exported s => exact (Territory.binds_exportedBy hs).mono (fun _ h => h) fun _ _ => trivial
  | keys s t => exact .about ⟨not_false, hs, ty_mem _ (.head _)⟩ fun _ _ => trivial
  | members s q => exact .about ⟨not_false, hs, name_mem _ (.head _)⟩ fun _ _ => trivial
  | ctors s q targs =>
    exact .about ⟨not_false, hs, name_mem _ (.head _)⟩ fun _ _ => trivial

theorem left_lt_bound (Q : Query) (T : Trail) {q : Question} (hq : Q.territory.realm.asked q) :
    T.left Q.start.pairs * (Q.start.reach + Q.start.links + 2 + 2) + q.rank < Q.bound := by
  have hdecl : ∀ s d, Start.reach { scope := s, decls := [d] } ≤ (s.enter (.decl d)).reach := by
    intro s d
    simp only [Start.reach, Scope.reach, Scope.enter, total, Decl.weightList, Node.weight]
    omega
  cases Q with
  | imports s d | exports s d => exact Start.left_lt_bound _ (hdecl s d) T hq
  | _ => exact Start.left_lt_bound _ (Nat.le_refl _) T hq

/-! ## Queries come to an end -/

/-- The query is one of the realm. -/
def In (Q : Query) (D : Realm) : Prop := Q.search.Ensures D.asked D.given fun _ => True

theorem in_territory (Q : Query) : Q.In Q.territory.realm := Q.search_asks

/-- While the query runs on the trail `T`, in the session `σ`, the question `q` comes up on the trail
`T'`, in the session `σ'`. -/
def Raises (Q : Query) (T : Trail) (σ : Session) (T' : Trail) (q : Question) (σ' : Session) : Prop :=
  ∃ q₁ σ₁, Q.search.Reaches (answerWithin Q.bound T) σ q₁ σ₁ ∧ Arises Q.bound T q₁ σ₁ T' q σ'

/-- The query comes to an end. -/
structure Ends (Q : Query) (T : Trail) (σ : Session) : Prop where
  /-- It has an answer, which does not depend on the bound. -/
  answer : ∃ r, (Q.run T).run σ = .ok r ∧
    ∀ n ≥ Q.bound, (Q.search.run (answerWithin n T)).run σ = .ok r
  /-- What it takes up on the way are pairs of a finite list, none of them twice and none that was
  on the trail. -/
  trail : ∀ {T' q σ'}, Q.Raises T σ T' q σ' →
    ∃ new, T' = new ++ T ∧ new.Nodup ∧ (∀ p ∈ new, p ∉ T) ∧ new ⊆ Q.start.pairs

theorem ends_of_faithful {Q : Query} {D : Realm} (hQ : Q.In D) (T : Trail) {σ : Session}
    (hσ : σ.Faithful D) : Q.Ends T σ := by
  -- The questions at hand are those both of the realm and of the query's territory.
  let E := D.inter Q.territory.realm
  have hE : E.Bounded Q.start.pairs (Q.start.reach + Q.start.links + 2) :=
    ⟨fun hq => Q.start.territory_bounded.pair hq.2, fun hq => Q.start.territory_bounded.rank hq.2⟩
  have hσE : σ.Faithful E := hσ.inter _
  have hQE : Q.In E := (hQ.and Q.in_territory).mono (fun _ h => h) fun _ _ => trivial
  constructor
  · have hkeeps : ∀ n T, E.Keeps (Session.Faithful E) (answerWithin n T) :=
      fun n T => (answerWithin_after E n T).keeps
    obtain ⟨r, hr⟩ := (hkeeps Q.bound T).run_ends hQE
      (fun q hq => ⟨hq, fun σ' hσ' =>
        answerWithin_ends hE hkeeps Q.bound T q σ' hq hσ' (Q.left_lt_bound T hq.2)⟩) hσE
    refine ⟨r, ?_, fun n hn => run_answerWithin_mono hn hr⟩
    rw [run_eq]
    exact hr
  · rintro T' q σ' ⟨q₁, σ₁, hreach, haris⟩
    obtain ⟨hq₁, hσ₁⟩ := hreach.faithful hQE hσE
    obtain ⟨new, hT', hnodup, hnew, hpairs⟩ := haris.trail hq₁ hσ₁
    refine ⟨new, hT', hnodup, hnew, fun p hp => ?_⟩
    obtain ⟨e, he, hep⟩ := hpairs p hp
    exact hE.pair he hep

end Query

/-- **Every query comes to an end**, on any trail and with any number of cuts so far: without a
memory, and with one that holds ideal answers. -/
theorem queries_end (Q : Query) (T : Trail) :
    (∀ cuts, Q.Ends T ⟨cuts, none⟩) ∧
      ∀ (D : Realm) (σ : Session), Q.In D → σ.Faithful D → Q.Ends T σ :=
  ⟨fun _ => Query.ends_of_faithful Q.in_territory T (Session.faithful_of_none _ rfl),
    fun _ _ hQ hσ => Query.ends_of_faithful hQ T hσ⟩

end Ambient
