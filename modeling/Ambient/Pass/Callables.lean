import Ambient.Tree.Strip
import Ambient.Walk.Basic

/-!
# Functions for callable values

A property or variable whose type can only be called is a method or function in disguise, one for
each of its call signatures. An object type with a single call signature is a function type.
-/

namespace Ambient

/-- The signature of a call signature that anyone may use. -/
def Member.callSignature? : Member → Option Signature
  | .call c => if c.level = .default then some c.sig else none
  | _ => none

/-- The signatures of a type that can only be called. -/
def Ty.callSignatures? : Ty → Option (List Signature)
  | .function s => some [s]
  | .object _ [] => none
  | .object _ ms => ms.mapM Member.callSignature?
  | _ => none

/-- The methods that a callable property stands for. Only the first keeps the author's comments. -/
def Property.toMethods? (p : Property) : Option (List Member) := do
  if p.expr.isSome then none
  let t ← p.tpe
  let sigs ← t.callSignatures?
  let comments :=
    match t with
    | .object _ _ => p.info.comments.withMarker .expandedCallables
    | _ => p.info.comments
  return keepFirstOnly Member.strip (sigs.map fun s =>
    .function ⟨{ comments := comments }, p.level, p.name, .normal, s, p.isStatic, false⟩)

/-- The functions that a callable variable stands for. Only the first keeps the author's
comments. -/
def VarDecl.toFunctions? (v : VarDecl) : Option (List Decl) := do
  if v.expr.isSome then none
  let sigs ← (← v.tpe).callSignatures?
  return keepFirstOnly Decl.strip (sigs.map fun s =>
    .function ⟨{ comments := v.info.comments }, v.declared, v.name, s, v.jsLocation, v.codePath⟩)

def Member.toMethods? : Member → Option (List Member)
  | .property p => p.toMethods?
  | _ => none

def Decl.toFunctions? : Decl → Option (List Decl)
  | .var v => v.toFunctions?
  | _ => none

/-- The list with each element replaced by what it stands for; `none` if there is nothing to
replace. -/
def expandEach {α : Type} (expand : α → Option (List α)) (as : List α) : Option (List α) :=
  if as.any fun a => (expand a).isSome then
    some (as.flatMap fun a => (expand a).getD [a])
  else none

/-- The function type that an object type with a single call signature stands for. A signature
without comments takes over those around it. -/
def Ty.toFunctionType? : Ty → Option Ty
  | .object info [.call c] =>
    if c.level = .default then
      let sig :=
        if c.sig.info.comments.isEmpty then
          { c.sig with info := c.sig.info.withComments (info.comments ++ c.info.comments) }
        else c.sig
      some (.function sig)
    else none
  | _ => none

def callableHooks : Hooks Id Unit :=
  { Hooks.idle fun _ _ => () with
    leaveTy := fun _ t => t.toFunctionType?
    newClassMembers := fun _ _ ms => expandEach Member.toMethods? ms
    newMembers := fun _ _ ds => expandEach Decl.toFunctions? ds }

/-- Replaces the callable values of a file by methods and functions. -/
def normalizeFunctions (f : File) : Edited File :=
  Id.run (walkFile callableHooks () f)

end Ambient
