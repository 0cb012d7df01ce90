import Ambient.Pipeline
import Mathlib.Logic.Function.Basic

/-!
# Identities chosen in other ways

`compile` gives the nodes of a library the numbers from one on as identities, anew for each step. Here
identities are chosen in any way: a `Labelling` has an identity for each number, and `compileBy` runs the
steps with the identities that one labelling for each step gives. Counting is the labelling of `compile`
(`compile_eq_compileBy`).
-/

namespace Ambient

/-- A choice of identities: the `n`-th node of a library gets the identity `label n`. Different nodes get
different ones. None gets zero, the identity of a node that a step has just made. -/
structure Labelling where
  label : Nat → NodeId
  zero : label 0 = 0
  injective : Function.Injective label

namespace Labelling

def counting : Labelling := ⟨id, rfl, Function.injective_id⟩

/-- Hands out one label after the other. -/
def next (φ : Labelling) (_ : NodeId) : StateM Nat NodeId :=
  modifyGet fun n => (φ.label n, n + 1)

end Labelling

/-- The file with the labels from the `n`-th on, and the first number that is left. -/
def File.relabel (φ : Labelling) (f : File) (n : Nat) : File × Nat :=
  (f.renumber φ.next).run n

namespace Dependencies

/-- The dependencies with one more library, labelled on. -/
def addBy (φ : Labelling) (deps : Dependencies) (name : Ident) (file : File) : Dependencies :=
  let (file, n) := file.relabel φ deps.nextId
  ⟨deps.libs ++ [⟨name, file, moduleOf (φ.label n) name file⟩], n + 1⟩

def ofFilesBy (φ : Labelling) (files : List (Ident × File)) : Dependencies :=
  (putAll files).foldl (fun deps (x, f) => deps.addBy φ x f) empty

end Dependencies

/-- What all scopes of the library share, its dependencies labelled. -/
def Library.rootBy (φ : Labelling) (o : Options) (lib : Library) : Root :=
  ⟨lib.name, o.pedantic, Dependencies.ofFilesBy φ lib.deps⟩

/-- Runs a step on a file that is labelled after the dependencies, in a session of its own. -/
def Pass.runBy (p : Pass) (φ : Labelling) (root : Root) (remember : Bool) (f : File) :
    Except Failure (Edited File) := do
  let session : Session := { memo := if remember then some {} else none }
  let (f, _) := f.relabel φ root.deps.nextId
  return (← (p.run (Scope.ofRoot root) f).run session).1

/-- Runs the steps in order, each with the identities that its labelling gives. -/
def runPassesBy (φ : PassName → Labelling) (o : Options) (lib : Library) :
    List PassName → File → Except CompileError (File × List PassName)
  | [], f => .ok (f, [])
  | p :: ps, f =>
    match (Pass.ofOptions o lib.name p).runBy (φ p) (lib.rootBy (φ p) o) o.enableScopeCache f with
    | .error failure => .error ⟨p, lib.name, failure⟩
    | .ok e => do
      let (f, changed) ← runPassesBy φ o lib ps e.value
      return (f, if e.changed then p :: changed else changed)

/-- Normalises a library, with the identities that a labelling for each step gives. -/
def compileBy (φ : PassName → Labelling) (o : Options)
    (lib : Library) : Except CompileError Compiled := do
  let (f, changed) ← runPassesBy φ o lib o.passes lib.file
  return ⟨lib.name, f, o.passes, changed⟩

theorem runPassesBy_counting (o : Options) (lib : Library) (ps : List PassName) (f : File) :
    runPassesBy (fun _ => .counting) o lib ps f =
      runPasses o ⟨lib.name, o.pedantic, Dependencies.ofFiles lib.deps⟩ ps f := by
  induction ps generalizing f with
  | nil => rfl
  | cons p ps ih =>
    have hstep : (Pass.ofOptions o lib.name p).runBy .counting (lib.rootBy .counting o)
          o.enableScopeCache f =
        (Pass.ofOptions o lib.name p).runAnew ⟨lib.name, o.pedantic, Dependencies.ofFiles lib.deps⟩
          o.enableScopeCache f := rfl
    rw [runPassesBy, runPasses, hstep]
    dsimp only
    generalize Pass.runAnew _ _ _ _ = r
    cases r with
    | error => rfl
    | ok e =>
      dsimp only
      rw [ih]

/-- To compile is to run the steps with numbers for identities. -/
theorem compile_eq_compileBy (o : Options) (lib : Library) :
    compile o lib = compileBy (fun _ => .counting) o lib := by
  rw [compile, compileBy, runPassesBy_counting]

end Ambient
