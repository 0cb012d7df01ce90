import Ambient.Tree.Edit

/-!
# Taking the author's comments off

Stripping a node leaves its markers and takes away the author's texts. Index signatures and mapped
rules are never stripped.
-/

namespace Ambient

def NodeInfo.strip (i : NodeInfo) : NodeInfo :=
  i.withComments i.comments.markersOnly

def Signature.strip (s : Signature) : Signature :=
  { s with info := s.info.strip }

/-- The declaration without the author's texts; `none` if it has no comments of its own. -/
def Decl.strip? (d : Decl) : Option Decl := do
  d.withComments? (← d.comments?).markersOnly

/-- The member without the author's texts; `none` for members that are never stripped. -/
def Member.strip? : Member → Option Member
  | .call c => some (.call { c with info := c.info.strip })
  | .ctor c => some (.ctor { c with info := c.info.strip })
  | .function m => some (.function { m with info := m.info.strip })
  | .property p => some (.property { p with info := p.info.strip })
  | .index _ | .mapped _ => none

/-- The declaration, stripped if it can be. -/
def Decl.strip (d : Decl) : Decl := d.strip?.getD d

/-- The member, stripped if it can be. -/
def Member.strip (m : Member) : Member := m.strip?.getD m

/-- The list with every element after the first stripped. -/
def keepFirstOnly {α : Type} (strip : α → α) : List α → List α
  | [] => []
  | a :: as => a :: as.map strip

end Ambient
