import Std.Data.HashMap
import Ambient.Scope.Basic
import Ambient.Violation

/-!
# Searches that do not run in circles

Declarations refer to each other across files, in circles too. A search therefore carries a `Trail`
of what it is already working on, as pairs of a scope and a node or name. A step that would take up
such a pair again is given up: it is cut.

A `Session` counts the cuts, and may remember results. What is remembered is a result that was
computed without a cut: a cut depends on the trail, and so does a result that saw one.
-/

namespace Ambient

/-- A declaration that a name denotes, with the scope it was found in. -/
structure Found where
  decl : Decl
  scope : Scope

/-- The scope inside the declaration that was found. -/
def Found.inner (f : Found) : Scope :=
  f.scope.enter (.decl f.decl)

/-- A name bound to a declaration by an import or export. -/
structure Binding where
  name : Ident
  found : Found

/-- What a search works on in a scope: a node or a name. -/
inductive Step where
  | node (id : NodeId)
  | name (q : QIdent)
  deriving DecidableEq, Repr

/-- What a search is already working on, innermost first. -/
abbrev Trail := List (ScopeKey × Step)

/-- Results by scope and node. -/
abbrev MemoTable (α : Type) := Std.HashMap (ScopeKey × NodeId) α

/-- Remembered results: what imports and exports bind, and the keys of mapped types. -/
structure Memo where
  imports : MemoTable (List Binding) := {}
  exports : MemoTable (List Binding) := {}
  keys : MemoTable (Option (List Ident)) := {}

/-- How many results are remembered. -/
def Memo.size (memo : Memo) : Nat :=
  memo.imports.size + memo.exports.size + memo.keys.size

/-- The state of searches: the cuts so far, and the remembered results if there is a memory. -/
structure Session where
  cuts : Nat := 0
  memo : Option Memo := none

/-- A computation that runs searches. -/
abbrev Resolve := StateT Session (Except Failure)

instance : LawfulMonad Resolve := inferInstanceAs (LawfulMonad (StateT Session (Except Failure)))

/-- Stops a search that outran its bound. -/
def Resolve.exhausted {α : Type} : Resolve α :=
  throw .exhausted

/-- Runs a search with a count of cuts of its own. -/
def Resolve.afresh {α : Type} (search : Resolve α) : Resolve α := do
  let outer := (← get).cuts
  modify fun s => { s with cuts := 0 }
  let a ← search
  modify fun s => { s with cuts := outer }
  return a

/-- The trail with one more pair, or `none`, counted as a cut, if the pair is on it already. -/
def Trail.extend (trail : Trail) (pair : ScopeKey × Step) : Resolve (Option Trail) := do
  if trail.contains pair then
    modify fun s => { s with cuts := s.cuts + 1 }
    return none
  else
    return some (pair :: trail)

/-- The results of all searches of a list, one after the other. -/
def concatMapM {m : Type → Type} [Monad m] {α β : Type} (f : α → m (List β)) :
    List α → m (List β)
  | [] => return []
  | a :: as => return (← f a) ++ (← concatMapM f as)

/-- The first result that is not empty. -/
def firstNonempty {m : Type → Type} [Monad m] {α β : Type} (f : α → m (List β)) :
    List α → m (List β)
  | [] => return []
  | a :: as => do
    match ← f a with
    | [] => firstNonempty f as
    | bs => return bs

end Ambient
