import Ambient.Ident

/-!
# Comments

A node carries a list of comments. A comment is either text that the author wrote or a marker that
one part of the library leaves for another. Comments never count when two nodes are compared.
-/

namespace Ambient

/-- A note from one part of the library to another. -/
inductive Marker where
  /-- The name to prefer for an interface made from the marked literal. -/
  | nameHint (hint : String)
  /-- The declaration was a callable value. -/
  | expandedCallables
  /-- The class was a value with construct signatures. -/
  | expandedClass
  /-- The declaration carries no information of its own. -/
  | isTrivial
  deriving DecidableEq, Repr

/-- A comment: the author's text, or a marker. -/
inductive Comment where
  | raw (text : String)
  | marker (m : Marker)
  deriving DecidableEq, Repr

/-- The comments of one node, in source order. -/
abbrev Comments := List Comment

namespace Comments

def rawTexts (cs : Comments) : List String :=
  cs.filterMap fun
    | .raw text => some text
    | .marker _ => none

/-- The comments without the author's texts. -/
def markersOnly (cs : Comments) : Comments :=
  cs.filter fun
    | .raw _ => false
    | .marker _ => true

def hasMarker (cs : Comments) (m : Marker) : Bool :=
  cs.contains (.marker m)

def nameHint? (cs : Comments) : Option String :=
  cs.findSome? fun
    | .marker (.nameHint hint) => some hint
    | _ => none

/-- The comments with the marker `m`, which is added at the end if it is not there yet. -/
def withMarker (cs : Comments) (m : Marker) : Comments :=
  if hasMarker cs m then cs else cs ++ [.marker m]

end Comments

end Ambient
