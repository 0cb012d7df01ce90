import Ambient.Scope.Bound
import Ambient.Scope.Constructors
import Ambient.Scope.Keys
import Ambient.Scope.Lookup
import Ambient.Scope.Members

/-!
# Answering questions

A question is answered by its search. First the trail is looked at: a question whose pair is on it
is given up. Then the memory: a remembered answer is taken, and an answer that was found without
a cut is kept.
-/

namespace Ambient

/-- The search that answers a question. -/
def Question.search : (q : Question) → Search q.Answer
  | .name picker s q => nameSearch picker s q
  | .imported s i => importSearch s i
  | .exported s h e => exportSearch s h e
  | .members s q => membersSearch s q
  | .contribution f => contributionSearch f
  | .keys s t => keysSearch s t
  | .aliasKeys f t => Search.about (.keys f.inner t)
  | .ctors s q targs => ctorsSearch s q targs
  | .ctorsOf f c => classCtorsSearch f.inner c

/-- The remembered answer to a question, or else the one that `compute` finds, which is stored if
nothing was cut. Without a memory it is computed each time. -/
def Resolve.memoized (q : Question) (compute : Resolve q.Answer) : Resolve q.Answer := do
  match (← get).memo.map fun memo => memo.find? q with
  | none => compute
  | some (some a) => return a
  | some none =>
    let cuts := (← get).cuts
    let a ← compute
    if (← get).cuts = cuts then
      modify fun s => { s with memo := s.memo.map fun memo => memo.store q a }
    return a

/-- Answers a question, with at most the given number of questions inside each other. -/
def answerWithin : Nat → Trail → (q : Question) → Resolve q.Answer
  | 0, _, _ => Resolve.exhausted
  | n + 1, trail, q =>
    match q.pair? with
    | none => Resolve.memoized q (q.search.run (answerWithin n trail))
    | some pair => do
      match ← trail.extend pair with
      | none => return q.unanswered
      | some trail => Resolve.memoized q (q.search.run (answerWithin n trail))

namespace Scope

/-- The declarations that `q` denotes in `s` and that `picker` picks, with the scopes they were
found in. -/
def lookupWith (s : Scope) (picker : Picker) (q : QIdent) (trail : Trail) :
    Resolve (List Found) :=
  answerWithin (s.searchBound 1) trail (.name picker s q)

/-- The types that `q` denotes. -/
def lookupType (s : Scope) (q : QIdent) (trail : Trail) : Resolve (List Found) :=
  s.lookupWith .types q trail

/-- All that `q` denotes, in a search of its own. -/
def lookup (s : Scope) (q : QIdent) : Resolve (List Found) :=
  Resolve.afresh (s.lookupWith .all q [])

/-- What the import `d` binds; another declaration binds nothing. -/
def expandImport (s : Scope) (d : Decl) (trail : Trail) : Resolve (List Binding) :=
  match d with
  | .imports i => answerWithin ((s.enter (.decl d)).searchBound 0) trail (.imported s i)
  | _ => return []

/-- What the export `d` binds; another declaration binds nothing. -/
def expandExport (s : Scope) (d : Decl) (trail : Trail) : Resolve (List Binding) :=
  match d with
  | .exports h e => answerWithin ((s.enter (.decl d)).searchBound 0) trail (.exported s h e)
  | _ => return []

/-- All that the container of the scope makes visible from outside. -/
def exportedBindings (s : Scope) (trail : Trail) : Resolve (List Binding) :=
  (exportedBy s).run (answerWithin (s.searchBound 0) trail)

/-- The members of the type named `q`, own ones first; `none` if `q` denotes nothing that has
members. -/
def membersOf (s : Scope) (q : QIdent) (trail : Trail) : Resolve (Option (List Member)) :=
  answerWithin (s.searchBound 1) trail (.members s q)

/-- The keys that `t` stands for in `s`, in the order in which they come up, each once; `none` if
they are not finitely many known names. -/
def evaluateKeys (s : Scope) (t : Ty) (trail : Trail) : Resolve (Option (List Ident)) :=
  answerWithin (s.searchBound t.links) trail (.keys s t)

/-- The constructors that a reference to the class `q` with the arguments `targs` provides. -/
def ctorsOf (s : Scope) (q : QIdent) (targs : List Ty) (trail : Trail) : Resolve (List Member) :=
  answerWithin (s.searchBound 1) trail (.ctors s q targs)

end Scope

end Ambient
