import Ambient.Ident

/-!
# Where a declaration lives

A `CodePath` says where a declaration stands among the declarations of its library, and a
`JsLocation` where the value it describes is found when the program runs.
-/

namespace Ambient

/-- The place of a declaration inside a library, if it has been given one. -/
inductive CodePath where
  | noPath
  | hasPath (lib : Ident) (path : QIdent)
  deriving DecidableEq, Repr

namespace CodePath

/-- The place of the library itself. -/
def root (lib : Ident) : CodePath :=
  .hasPath lib []

/-- The place of the declaration `name` inside `p`. -/
def add (p : CodePath) (name : Ident) : CodePath :=
  match p with
  | .noPath => .noPath
  | .hasPath lib path => .hasPath lib (QIdent.add path name)

/-- The sibling of `p` named `name`. -/
def renameLast (p : CodePath) (name : Ident) : CodePath :=
  match p with
  | .noPath => .noPath
  | .hasPath lib path => .hasPath lib (QIdent.add path.dropLast name)

/-- Has the declaration been given a place? -/
def isSet : CodePath → Bool
  | .noPath => false
  | .hasPath _ _ => true

def lib? : CodePath → Option Ident
  | .noPath => none
  | .hasPath lib _ => some lib

def path? : CodePath → Option QIdent
  | .noPath => none
  | .hasPath _ path => some path

/-- The place as text: the library, then a colon and the dotted path unless that is empty. -/
def text : CodePath → String
  | .noPath => "<no path>"
  | .hasPath lib [] => lib
  | .hasPath lib path => lib ++ ":" ++ QIdent.text path

end CodePath

/-- Where a declared value is found when the program runs. -/
inductive JsLocation where
  /-- Nowhere in particular. -/
  | zero
  /-- On the global object. -/
  | global (path : QIdent)
  /-- In a module, along a path of its exports. -/
  | module (name : Ident) (path : List Ident)
  deriving DecidableEq, Repr

/-- The location of the member `name`; a call target is found where its owner is. -/
def JsLocation.add (l : JsLocation) (name : Ident) : JsLocation :=
  if name = Ident.apply then l
  else
    match l with
    | .zero => .zero
    | .global path => .global (QIdent.add path name)
    | .module m path => .module m (path ++ [name])

end Ambient
