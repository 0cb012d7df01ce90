import Ambient.Text.Lower
import Ambient.Tree.Equal

/-!
# Interfaces waiting to be added

The interfaces that are to be added to one container, in order. Names that differ only in case are
one name here: they could not be told apart once each interface is a file of its own.
-/

namespace Ambient

/-- The interfaces that wait to be added to one container, in order. -/
abbrev Pending := List InterfaceDecl

namespace Pending

/-- Has an interface that waits the name `x`, upper and lower case apart? -/
def isTaken (p : Pending) (x : Ident) : Bool :=
  let folded := Text.toLower x
  p.any fun i => Text.toLower i.name == folded

/-- The first interface that waits with equal type parameters and members. -/
def findEqual? (p : Pending) (tparams : List TypeParam) (ms : List Member) :
    Option InterfaceDecl :=
  p.find? fun i => i.tparams == tparams && i.members == ms

/-- The interfaces with one more at the end. -/
def insert (p : Pending) (i : InterfaceDecl) : Pending :=
  p ++ [i]

end Pending

end Ambient
