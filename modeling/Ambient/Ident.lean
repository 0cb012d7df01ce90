import Ambient.Text.Upper

/-!
# Names

`Ident` is a simple name and `QIdent` a dotted one, outermost part first. A qualified name may be
empty: that is the path of a library's root.
-/

namespace Ambient

/-- A simple name. -/
abbrev Ident := String

/-- A dotted name, outermost part first. -/
abbrev QIdent := List Ident

namespace Ident

/-- The name of what is called when a module or namespace is itself called. -/
def apply : Ident := "^"

/-- The name of a class's constructors. -/
def constructor : Ident := "constructor"

/-- The name of a module's default export. -/
def defaultExport : Ident := "default"

/-- The property of a constructor function that holds its instances' members. -/
def prototype : Ident := "prototype"

/-- The names of the built-in types, which no declaration can define. -/
def primitives : List Ident :=
  ["any", "bigint", "boolean", "never", "null", "number", "object", "string", "symbol", "this",
   "undefined", "unknown", "void"]

def isPrimitive (x : Ident) : Bool :=
  primitives.contains x

/-- `x` with its first character in upper case, by the full mapping. -/
def capitalized (x : Ident) : String :=
  match x.toList with
  | [] => ""
  | c :: cs => String.ofList (Text.upper c ++ cs)

end Ident

namespace QIdent

/-- Reads a dotted name: `a.b` has two parts and the empty text one empty part. -/
def parse (dotted : String) : QIdent :=
  parts [] dotted.toList
where
  /-- The parts of the rest of the text, `part` being the part read so far, backwards. -/
  parts (part : List Char) : List Char → QIdent
    | [] => [String.ofList part.reverse]
    | c :: cs =>
      if c = '.' then String.ofList part.reverse :: parts [] cs else parts (c :: part) cs

def text (q : QIdent) : String :=
  ".".intercalate q

def single? : QIdent → Option Ident
  | [x] => some x
  | _ => none

def isPrimitive (q : QIdent) : Bool :=
  (single? q).any Ident.isPrimitive

def add (q : QIdent) (x : Ident) : QIdent :=
  q ++ [x]

end QIdent

end Ambient
