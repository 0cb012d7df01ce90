import Ambient.Options
import Ambient.Pass.Callables
import Ambient.Pass.Classes
import Ambient.Pass.Constructors
import Ambient.Pass.Hoist
import Ambient.Pass.Interfaces
import Ambient.Pass.Mapped
import Ambient.Pass.Overloads
import Ambient.Pass.Place
import Ambient.Pass.Simplify

/-!
# Normalising a library

A library is normalised by running the steps that its options leave in, one on the result of the
other. Each step takes up the file anew: the nodes are numbered, and what searches remember is
forgotten.
-/

namespace Ambient

/-- A step with its settings. -/
inductive Pass where
  | setCodePath (lib : Ident)
  | simplifyTypes
  | expandTypeMappings
  | normalizeFunctions
  | extractClasses (suffix : String)
  | forwardCtors
  | hoisting
  | extractInterfaces (stem : String)
  | typeRewriter (sub : Substitution)
  | keepFirstOverloadComment

namespace Pass

/-- Runs a step on a file, as seen from the scope of its library. -/
def run (p : Pass) (root : Scope) (f : File) : Resolve (Edited File) :=
  match p with
  | .setCodePath lib => return Ambient.setCodePaths lib f
  | .simplifyTypes => return Ambient.simplifyTypes f
  | .expandTypeMappings => Ambient.expandTypeMappings root f
  | .normalizeFunctions => return Ambient.normalizeFunctions f
  | .extractClasses suffix => Ambient.extractClasses suffix root f
  | .forwardCtors => Ambient.forwardCtors root f
  | .hoisting => Ambient.hoistExports root f
  | .extractInterfaces stem => Ambient.extractInterfaces stem root f
  | .typeRewriter sub => return sub.inFile f
  | .keepFirstOverloadComment => return Ambient.keepFirstOverloadComment f

/-- The step of that name, as the options set it for a library. -/
def ofOptions (o : Options) (lib : Ident) : PassName → Pass
  | .setCodePath => .setCodePath lib
  | .simplifyTypes => .simplifyTypes
  | .expandTypeMappings => .expandTypeMappings
  | .normalizeFunctions => .normalizeFunctions
  | .extractClasses => .extractClasses o.classBackupSuffix
  | .forwardCtors => .forwardCtors
  | .hoisting => .hoisting
  | .extractInterfaces => .extractInterfaces o.anonymousInterfacePrefix
  | .typeRewriter => .typeRewriter o.substitution
  | .keepFirstOverloadComment => .keepFirstOverloadComment

/-- Runs a step on a file that is taken up anew: numbered after the dependencies, in a session of
its own. -/
def runAnew (p : Pass) (root : Root) (remember : Bool) (f : File) :
    Except Failure (Edited File) := do
  let session : Session := { memo := if remember then some {} else none }
  let (f, _) := f.number root.deps.nextId
  return (← (p.run (Scope.ofRoot root) f).run session).1

end Pass

/-- A library to be normalised, with the normalised files of those it depends on. -/
structure Library where
  name : Ident
  file : File
  deps : List (Ident × File)

/-- A normalised library. -/
structure Compiled where
  name : Ident
  file : File
  /-- The steps that ran. -/
  passes : List PassName
  /-- The steps that changed the file. -/
  changedBy : List PassName

/-- A step that failed on a library. -/
structure CompileError where
  pass : PassName
  library : Ident
  failure : Failure

def CompileError.message (e : CompileError) : String :=
  "pass '" ++ e.pass.text ++ "' failed on library '" ++ e.library ++ "': " ++ e.failure.message

/-- Runs the steps in order; gives the file and the steps that changed it. -/
def runPasses (o : Options) (root : Root) :
    List PassName → File → Except CompileError (File × List PassName)
  | [], f => .ok (f, [])
  | p :: ps, f =>
    match (Pass.ofOptions o root.lib p).runAnew root o.enableScopeCache f with
    | .error failure => .error ⟨p, root.lib, failure⟩
    | .ok e => do
      let (f, changed) ← runPasses o root ps e.value
      return (f, if e.changed then p :: changed else changed)

/-- Normalises a library. -/
def compile (o : Options) (lib : Library) : Except CompileError Compiled := do
  let root : Root := ⟨lib.name, o.pedantic, Dependencies.ofFiles lib.deps⟩
  let (f, changed) ← runPasses o root o.passes lib.file
  return ⟨lib.name, f, o.passes, changed⟩

/-- Normalises several libraries, each on its own. -/
def compileBatch (o : Options) (libs : List Library) : List (Except CompileError Compiled) :=
  libs.map (compile o)

end Ambient
