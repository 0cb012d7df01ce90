import Ambient.Tree.Equal
import Ambient.Tree.Node

/-!
# Pickers

Which of the declarations that a name denotes are wanted.
-/

namespace Ambient

/-- A choice among declarations. -/
inductive Picker where
  | all
  /-- Classes, interfaces, aliases and enumerations. -/
  | types
  | vars
  /-- Named declarations of values. -/
  | namedValues
  | namespaces
  | classes
  /-- What another picker picks, except what is equal to one of the given declarations. -/
  | butNot (inner : Picker) (excluded : List Decl)

def Picker.pick : Picker → Decl → Bool
  | .all, _ => true
  | .types, d => d.isType
  | .vars, .var _ => true
  | .vars, _ => false
  | .namedValues, .var _ | .namedValues, .function _ | .namedValues, .cls _
  | .namedValues, .enum _ | .namedValues, .space _ _ => true
  | .namedValues, _ => false
  | .namespaces, .space _ _ => true
  | .namespaces, _ => false
  | .classes, d => d.isClass
  | .butNot inner excluded, d => inner.pick d && excluded.all fun e => !(e == d)

end Ambient
