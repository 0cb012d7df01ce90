import Ambient.Scope.Picker
import Ambient.Scope.Session

/-!
# Questions

What a search has to find out it asks as questions, and answering one may take the answers to
others. A `Search` asks questions and goes on with the answers. It does not say how they are
answered: what is remembered, and what is given up because the search would run in a circle, is the
matter of the one function that answers them.
-/

namespace Ambient

/-- What one declaration contributes to the members of a name that denotes it. -/
structure Contribution where
  /-- Is the declaration one that has members? -/
  resolved : Bool
  own : List Member
  inherited : List Member

/-- A question that a search can ask. -/
inductive Question where
  /-- Which declarations does the name `q` denote in `s`? -/
  | name (picker : Picker) (s : Scope) (q : QIdent)
  /-- What does the import bind? -/
  | imported (s : Scope) (i : ImportDecl)
  /-- What does the export bind? -/
  | exported (s : Scope) (h : ExportHead) (e : Exportee)
  /-- Which members has the type named `q`? -/
  | members (s : Scope) (q : QIdent)
  /-- What does the declaration contribute to the members of its name? -/
  | contribution (f : Found)
  /-- Which keys does the type stand for? -/
  | keys (s : Scope) (t : Ty)
  /-- Which keys does the alias with that target stand for? -/
  | aliasKeys (f : Found) (target : Ty)
  /-- Which constructors does a reference to the class named `q` provide? -/
  | ctors (s : Scope) (q : QIdent) (targs : List Ty)
  /-- Which constructors has the class, its own or inherited ones? -/
  | ctorsOf (f : Found) (c : ClassDecl)

namespace Question

/-- What answers a question. -/
abbrev Answer : Question → Type
  | .name _ _ _ => List Found
  | .imported _ _ | .exported _ _ _ => List Binding
  | .members _ _ => Option (List Member)
  | .contribution _ => List Contribution
  | .keys _ _ | .aliasKeys _ _ => Option (List Ident)
  | .ctors _ _ _ | .ctorsOf _ _ => List Member

/-- The answer to a question that is given up. -/
def unanswered : (q : Question) → q.Answer
  | .name _ _ _ => []
  | .imported _ _ | .exported _ _ _ => []
  | .members _ _ => none
  | .contribution _ => []
  | .keys _ _ | .aliasKeys _ _ => none
  | .ctors _ _ _ | .ctorsOf _ _ => []

end Question

/-- Does the name denote no declaration in `s`, whatever is declared? -/
def Scope.isSettled (s : Scope) (q : QIdent) : Bool :=
  q.isEmpty || QIdent.isPrimitive q || s.isAbstract q

/-- What a search that answers the question takes up on its trail. -/
def Question.pair? : Question → Option (ScopeKey × Step)
  | .name _ s q => if s.isSettled q then none else some (s.key, .name q)
  | .imported s i => some (s.key, .node i.id)
  | .exported s h _ => some (s.key, .node h.info.id)
  | .contribution f | .aliasKeys f _ | .ctorsOf f _ => some (f.scope.key, .node f.decl.id)
  | .members _ _ | .keys _ _ | .ctors _ _ _ => none

namespace Memo

/-- The remembered answer to a question. -/
def find? (memo : Memo) : (q : Question) → Option q.Answer
  | .imported s i => memo.imports[(s.key, i.id)]?
  | .exported s h _ => memo.exports[(s.key, h.info.id)]?
  | .keys _ .this => none
  | .keys s t => memo.keys[(s.key, t.id)]?
  | _ => none

/-- The memory with the answer to a question, if answers to questions of its kind are kept. -/
def store (memo : Memo) : (q : Question) → q.Answer → Memo
  | .imported s i, bs => { memo with imports := memo.imports.insert (s.key, i.id) bs }
  | .exported s h _, bs => { memo with exports := memo.exports.insert (s.key, h.info.id) bs }
  | .keys _ .this, _ => memo
  | .keys s t, ks => { memo with keys := memo.keys.insert (s.key, t.id) ks }
  | _, _ => memo

end Memo

/-- A computation that asks questions. -/
inductive Search (α : Type) where
  | done (a : α)
  | ask (q : Question) (next : q.Answer → Search α)

namespace Search

/-- Goes on with the result of a search. -/
def bind {α β : Type} : Search α → (α → Search β) → Search β
  | .done a, f => f a
  | .ask q next, f => .ask q fun a => (next a).bind f

instance : Monad Search where
  pure := .done
  bind := .bind

/-- Asks one question. -/
def about (q : Question) : Search q.Answer :=
  .ask q .done

/-- Runs a search whose questions are answered by `answer`. -/
def run {m : Type → Type} [Monad m] {α : Type} (answer : (q : Question) → m q.Answer) :
    Search α → m α
  | .done a => return a
  | .ask q next => do (next (← answer q)).run answer

end Search

end Ambient
