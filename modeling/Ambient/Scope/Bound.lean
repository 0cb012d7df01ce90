import Ambient.Scope.Basic

/-!
# How long a search can be

A search never takes up the same pair of a scope and a step twice, so its trail is no longer than
the number of such pairs. The scopes it can reach are those around its start and one for each
declaration below them and in the dependencies, which are seen both as files and as modules. The
steps are the declarations and the names that they make a search follow. Between two steps a search
may ask about the members of unions inside each other, which a type's weight counts too.
-/

namespace Ambient

def total {α : Type} (f : α → Nat) : List α → Nat
  | [] => 0
  | a :: as => f a + total f as

mutual

/-- How many names a search follows from a type: those of the references in it that are not inside
an object, a signature or an argument. Unions are counted with them. -/
def Ty.links : Ty → Nat
  | .ref _ _ _ => 1
  | .keyOf _ t => t.links
  | .union _ ts => 1 + Ty.linksList ts
  | .intersect _ ts => Ty.linksList ts
  | _ => 0

def Ty.linksList : List Ty → Nat
  | [] => 0
  | t :: ts => t.links + Ty.linksList ts

end

/-- How many names an import binds in one form. -/
def Imported.names : Imported → Nat
  | .name _ | .star _ => 1
  | .destructured xs => xs.length

mutual

/-- The number of declarations in a declaration, itself included, of the names that they import and
of the names that a search follows from them. -/
def Decl.weight : Decl → Nat
  | .space _ ms | .module _ ms | .augmentation _ ms | .global _ ms => 1 + Decl.weightList ms
  | .cls c => 2 + c.implements.length
  | .iface i => 1 + i.inheritance.length
  | .typeAlias a => 1 + a.target.links
  | .imports i => 2 + total Imported.names i.imported
  | .exports _ e => 1 + e.weight
  | .enum _ | .var _ | .function _ | .exportAs _ => 1

/-- The weight of what an export makes visible. -/
def Exportee.weight : Exportee → Nat
  | .names xs _ => xs.length
  | .inline d => d.weight
  | .star _ _ => 0

def Decl.weightList : List Decl → Nat
  | [] => 0
  | d :: ds => d.weight + Decl.weightList ds

end

/-- The weight of the declarations in a node. -/
def Node.weight : Node → Nat
  | .file f => Decl.weightList f.members
  | .decl d => d.weight
  | _ => 0

/-- The weight of all that a search from `s` can reach. -/
def Scope.reach (s : Scope) : Nat :=
  total (fun f => f.node.weight + 1) s.frames + 1 +
    total (fun d => d.module.weight + Decl.weightList d.file.members + 2) s.root.deps.libs

/-- A bound on the questions inside each other of a search from `s` that starts with at most `names`
names: one for each pair on the trail, and for each pair those asked before the next one. -/
def Scope.searchBound (s : Scope) (names : Nat) : Nat :=
  (s.reach * (s.reach + names) + 1) * (s.reach + names + 4)

end Ambient
