import Ambient.Algebra.Union
import Ambient.Pass.Substitute
import Ambient.Scope.Answer

/-!
# Writing out mapped types

`{ [K in "a" | "b"]?: T[K] }` over keys that are known becomes `{ a?: T["a"]; b?: T["b"] }`, and an
indexed access to a property that can be found becomes the type of that property. A rule with an
`as` clause, or over keys that are not known, stays.
-/

namespace Ambient

/-- The type of the first instance property named `x` that has one. -/
def propertyType? (x : Ident) (ms : List Member) : Option Ty :=
  ms.findSome? fun
    | .property p => if p.name = x ∧ !p.isStatic then p.tpe else none
    | _ => none

/-- The type of the property that an indexed access by a literal text names. -/
def accessedType? (s : Scope) (t : Ty) : Resolve (Option Ty) :=
  match t with
  | .lookup _ (.object _ ms) (.literal _ (.str x)) => return propertyType? x ms
  | .lookup _ (.ref _ q _) (.literal _ (.str x)) => do
    let ms ← Resolve.afresh (s.membersOf q [])
    return ms.bind (propertyType? x)
  | _ => return none

/-- The hooks that resolve indexed accesses as seen from `s`. -/
def accessHooks (s : Scope) : Hooks Resolve Unit :=
  { Hooks.idle fun _ _ => () with leaveTy := fun _ t => accessedType? s t }

/-- The type with an optional modifier applied. -/
def OptionalModifier.apply : OptionalModifier → Ty → Ty
  | .optionalize, t => makeOptional t
  | .deoptionalize, t => (extractOptional? t).getD t
  | .noop, t => t

/-- The property that a mapped rule makes for one key. -/
def MappedMember.propertyFor (s : Scope) (m : MappedMember) (key : Ident) : Resolve Member := do
  let t := (Substitution.inTy [(.ref {} [m.key] [], .literal 0 (.str key))] m.target).value
  let t := (← walkTy (accessHooks s) () t).value
  return .property
    ⟨{}, m.level, key, some (m.optionalize.apply t), none, false, m.readonly == .yes⟩

def MappedMember.propertiesFor (s : Scope) (m : MappedMember) : List Ident → Resolve (List Member)
  | [] => return []
  | k :: ks => return (← m.propertyFor s k) :: (← m.propertiesFor s ks)

/-- The object type that a mapped type over known keys stands for. -/
def expandMapped (s : Scope) (t : Ty) : Resolve (Option Ty) := do
  match t with
  | .object info [.mapped m] =>
    if m.asName.isSome then return none
    match ← Resolve.afresh (s.evaluateKeys m.source []) with
    | none => return none
    | some keys =>
      return some (.object (info.withComments (info.comments ++ m.info.comments))
        (← m.propertiesFor s keys))
  | _ => return none

def mappedHooks : Hooks Resolve Scope :=
  { Hooks.idle Scope.enter with leaveTy := expandMapped }

/-- Writes out the mapped types of a file. -/
def expandTypeMappings (root : Scope) (f : File) : Resolve (Edited File) :=
  walkFile mappedHooks root f

end Ambient
