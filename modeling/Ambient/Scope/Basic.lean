import Ambient.Assoc
import Ambient.Tree.Node
import Ambient.Tree.Number

/-!
# Scopes

A scope is a place in a tree from which names are resolved: the library it belongs to and the nodes
that were entered to get there. Entering a node adds a frame; the scope it is entered from stays as
it is, so scopes can be kept and compared.

Every frame holds the type parameters and mapped-type keys that are in force there, its own and
those it inherits.
-/

namespace Ambient

/-- A library that the one at hand depends on. -/
structure Dependency where
  name : Ident
  file : File
  /-- The library seen as a module of its own name, so that it can be imported without an ambient
  module that declares it. The declarations in it are those of the file. -/
  module : Decl

/-- The libraries that the one at hand depends on, in order of resolution, numbered. -/
structure Dependencies where
  libs : List Dependency
  /-- The first number that no node of a dependency has. -/
  nextId : NodeId

namespace Dependencies

def empty : Dependencies := ⟨[], 1⟩

/-- A library seen as a module. -/
def moduleOf (id : NodeId) (name : Ident) (file : File) : Decl :=
  .module ⟨{ id := id }, true, name, file.codePath, .module name []⟩ file.members

/-- The dependencies with one more library, numbered on. -/
def add (deps : Dependencies) (name : Ident) (file : File) : Dependencies :=
  let (file, n) := file.number deps.nextId
  ⟨deps.libs ++ [⟨name, file, moduleOf n name file⟩], n + 1⟩

/-- The dependencies given by a list of names and files. A name that comes again keeps its place and
gets the later file. -/
def ofFiles (files : List (Ident × File)) : Dependencies :=
  (putAll files).foldl (fun deps (x, f) => deps.add x f) empty

def names (deps : Dependencies) : List Ident :=
  deps.libs.map (·.name)

def find? (deps : Dependencies) (name : Ident) : Option Dependency :=
  deps.libs.find? fun d => d.name == name

end Dependencies

/-- What all scopes of one library share. -/
structure Root where
  lib : Ident
  /-- Are names that resolve to nothing worth a warning? -/
  pedantic : Bool
  deps : Dependencies

/-- An entered node, with the type parameters (newest first) and mapped-type keys in force. -/
structure Frame where
  node : Node
  tparams : List (Ident × TypeParam)
  tkeys : List Ident

/-- A place from which names are resolved. -/
structure Scope where
  root : Root
  /-- The entered nodes, innermost first. -/
  frames : List Frame

/-- The identity of a scope: its library and the nodes entered, innermost first. -/
abbrev ScopeKey := Ident × List NodeId

namespace Scope

/-- The scope of a library before any node is entered. -/
def ofRoot (root : Root) : Scope := ⟨root, []⟩

def key (s : Scope) : ScopeKey :=
  (s.root.lib, s.frames.map (·.node.id))

/-- The type parameters in force, newest first. -/
def tparams (s : Scope) : List (Ident × TypeParam) :=
  match s.frames with
  | [] => []
  | f :: _ => f.tparams

/-- The mapped-type keys in force. -/
def tkeys (s : Scope) : List Ident :=
  match s.frames with
  | [] => []
  | f :: _ => f.tkeys

/-- The scope inside the node `n`. -/
def enter (s : Scope) (n : Node) : Scope :=
  { s with
    frames :=
      { node := n
        tparams := n.tparams.foldl (fun ps p => (p.name, p) :: ps) s.tparams
        tkeys := n.typeKey?.toList ++ s.tkeys } :: s.frames }

/-- The node that was entered last. -/
def current? (s : Scope) : Option Node :=
  s.frames.head?.map (·.node)

/-- The scope around the node that was entered last. -/
def outer? (s : Scope) : Option Scope :=
  match s.frames with
  | [] => none
  | _ :: fs => some { s with frames := fs }

/-- The scopes from the frames outwards to the root. -/
def outwardsFrom (root : Root) : List Frame → List Scope
  | [] => [⟨root, []⟩]
  | f :: fs => ⟨root, f :: fs⟩ :: outwardsFrom root fs

/-- The scope and all around it, innermost first. -/
def outwards (s : Scope) : List Scope :=
  outwardsFrom s.root s.frames

/-- The entered nodes, innermost first. -/
def stack (s : Scope) : List Node :=
  s.frames.map (·.node)

/-- The type parameter in force under the name `x`. -/
def tparam? (s : Scope) (x : Ident) : Option TypeParam :=
  s.tparams.lookup x

/-- Is `q` a type parameter or mapped-type key in force? Only simple names can be. -/
def isAbstract (s : Scope) (q : QIdent) : Bool :=
  match q with
  | [x] => (s.tparam? x).isSome || s.tkeys.contains x
  | _ => false

/-- Is the scope directly inside a container of declarations? -/
def isContainer (s : Scope) : Bool :=
  s.current?.any Node.isContainer

/-- The declarations of the container that the scope is directly inside. -/
def members (s : Scope) : List Decl :=
  (s.current?.bind Node.members?).getD []

def isFile (s : Scope) : Bool :=
  match s.current? with
  | some (.file _) => true
  | _ => false

/-- The scope directly inside the innermost file around. -/
def fileScope? (s : Scope) : Option Scope :=
  s.outwards.find? isFile

/-- The place of the innermost entered node that has one. -/
def codePath (s : Scope) : CodePath :=
  (s.stack.findSome? fun n => n.codePath?.filter CodePath.isSet).getD .noPath

/-- The scope of a dependency before any node is entered. -/
def dependencyRoot? (s : Scope) (lib : Ident) : Option Scope :=
  (s.root.deps.find? lib).map fun d => ofRoot { s.root with lib := d.name, pedantic := false }

/-- The scope directly inside the file of a dependency. -/
def dependencyScope? (s : Scope) (lib : Ident) : Option Scope := do
  let d ← s.root.deps.find? lib
  return (← s.dependencyRoot? lib).enter (.file d.file)

/-- The scopes directly inside the files of all dependencies. -/
def dependencyScopes (s : Scope) : List Scope :=
  s.root.deps.names.filterMap s.dependencyScope?

/-- The scope as text: the library and the names of the entered nodes, outermost first. -/
def text (s : Scope) : String :=
  "Scope(" ++ " / ".intercalate (s.root.lib :: s.stack.reverse.filterMap Node.name?) ++ ")"

end Scope

end Ambient
