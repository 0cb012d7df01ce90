import Ambient.Json.Shape
import Ambient.Json.Text
import Ambient.Pass.Substitute
import Ambient.Text.Numeric
import Ambient.Tree.Build

/-!
# Options

What a user can set, its JSON form, and the rules that a setting must keep. Every field of the JSON
form may be missing; a field that is not known is ignored, one that comes twice is refused.
-/

namespace Ambient

/-- The steps of normalisation. -/
inductive PassName where
  | setCodePath
  | simplifyTypes
  | expandTypeMappings
  | normalizeFunctions
  | extractClasses
  | forwardCtors
  | hoisting
  | extractInterfaces
  | typeRewriter
  | keepFirstOverloadComment
  deriving DecidableEq, Repr

namespace PassName

/-- The steps in the order in which they run. -/
def order : List PassName :=
  [.setCodePath, .simplifyTypes, .expandTypeMappings, .normalizeFunctions, .extractClasses,
   .forwardCtors, .hoisting, .extractInterfaces, .typeRewriter, .keepFirstOverloadComment]

def text : PassName → String
  | .setCodePath => "set-code-path"
  | .simplifyTypes => "simplify-types"
  | .expandTypeMappings => "expand-type-mappings"
  | .normalizeFunctions => "normalize-functions"
  | .extractClasses => "extract-classes"
  | .forwardCtors => "forward-ctors"
  | .hoisting => "hoisting"
  | .extractInterfaces => "extract-interfaces"
  | .typeRewriter => "type-rewriter"
  | .keepFirstOverloadComment => "keep-first-overload-comment"

def ofText? (s : String) : Option PassName :=
  order.find? fun p => p.text == s

end PassName

/-- References to the dotted name `source` become references to `target`. -/
structure TypeSubstitution where
  source : String
  target : String
  deriving DecidableEq, Repr

structure Options where
  /-- Warn about names that resolve to nothing. -/
  pedantic : Bool := false
  /-- Remember the results of searches during a step. -/
  enableScopeCache : Bool := true
  /-- The start of the names of extracted interfaces. -/
  anonymousInterfacePrefix : String := "Anon"
  /-- The end of the name of an extracted class whose own name is taken. -/
  classBackupSuffix : String := "Cls"
  typeSubstitutions : List TypeSubstitution := []
  /-- The names of the steps to leave out. -/
  disabledPasses : List String := []
  deriving DecidableEq, Repr

/-- What can be wrong with options. -/
inductive OptionsError where
  /-- The text is not the JSON form of options. -/
  | notParsed
  | unknownPass (name : String)
  | badPrefix (text : String)
  | emptySuffix
  | badSubstitution (sub : TypeSubstitution)
  deriving DecidableEq, Repr

def OptionsError.message : OptionsError → String
  | .notParsed => "failed to parse compiler options"
  | .unknownPass name =>
    "unknown pass '" ++ name ++ "' in disabledPasses (known passes: " ++
      ", ".intercalate (PassName.order.map PassName.text) ++ ")"
  | .badPrefix text => "anonymousInterfacePrefix '" ++ text ++ "' is not an identifier"
  | .emptySuffix => "classBackupSuffix must not be empty"
  | .badSubstitution sub =>
    "typeSubstitutions entry '" ++ sub.source ++ "' -> '" ++ sub.target ++
      "' is not a pair of dotted names"

/-- May the text be a name in a program? -/
def isIdentifier (s : String) : Bool :=
  match s.toList with
  | [] => false
  | c :: cs =>
    (Text.isAlphabetic c || c == '_' || c == '$') &&
      cs.all fun c => Text.isAlphanumeric c || c == '_' || c == '$'

/-- Is the text a sequence of names with dots between them? -/
def isDottedName (s : String) : Bool :=
  (QIdent.parse s).all isIdentifier

namespace Options

/-! ## Rules -/

def checkPasses : List String → Except OptionsError Unit
  | [] => .ok ()
  | x :: xs => if (PassName.ofText? x).isSome then checkPasses xs else .error (.unknownPass x)

def checkSubstitutions : List TypeSubstitution → Except OptionsError Unit
  | [] => .ok ()
  | sub :: subs =>
    if isDottedName sub.source && isDottedName sub.target then checkSubstitutions subs
    else .error (.badSubstitution sub)

/-- Checks all rules, and reports the first that is broken. -/
def validate (o : Options) : Except OptionsError Unit := do
  checkPasses o.disabledPasses
  if !isIdentifier o.anonymousInterfacePrefix then
    throw (.badPrefix o.anonymousInterfacePrefix)
  if o.classBackupSuffix.isEmpty then throw .emptySuffix
  checkSubstitutions o.typeSubstitutions

/-! ## What the options say -/

def isEnabled (o : Options) (p : PassName) : Bool :=
  !o.disabledPasses.contains p.text

/-- The steps that run. Without substitutions there is nothing to replace. -/
def passes (o : Options) : List PassName :=
  PassName.order.filter fun p =>
    o.isEnabled p && (p != .typeRewriter || !o.typeSubstitutions.isEmpty)

/-- The substitution of references that the options ask for. -/
def substitution (o : Options) : Substitution :=
  Substitution.ofPairs (o.typeSubstitutions.map fun sub => (.named sub.source, .named sub.target))

/-! ## The JSON form -/

def toJson (o : Options) : Json :=
  .obj [("pedantic", .bool o.pedantic), ("enableScopeCache", .bool o.enableScopeCache),
    ("anonymousInterfacePrefix", .str o.anonymousInterfacePrefix),
    ("classBackupSuffix", .str o.classBackupSuffix),
    ("typeSubstitutions", Json.ofList
      (fun sub => .obj [("from", .str sub.source), ("to", .str sub.target)]) o.typeSubstitutions),
    ("disabledPasses", Json.ofList .str o.disabledPasses)]

/-- The fields of an object that are known, if none of them comes twice. -/
def knownFields? (names : List String) (fields : List (String × Json)) :
    Option (List (Option Json)) :=
  names.mapM fun k =>
    match fields.filter fun f => f.1 == k with
    | [] => some none
    | [(_, j)] => some (some j)
    | _ => none

/-- The items of an array in the place of an object: later fields may be missing. -/
def leadingFields? : List String → List Json → Option (List (Option Json))
  | [], [] => some []
  | [], _ :: _ => none
  | _ :: names, [] => (leadingFields? names []).map (none :: ·)
  | _ :: names, j :: js => (leadingFields? names js).map (some j :: ·)

/-- Reads a field, or takes what stands for it if it is missing. -/
def fieldOr {α : Type} (missing : α) (read : Json → Option α) : Option Json → Option α
  | none => some missing
  | some j => read j

def substitutionOfJson? : Json → Option TypeSubstitution
  | .obj fields => do
    let [some a, some b] ← knownFields? ["from", "to"] fields | none
    return ⟨← a.str?, ← b.str?⟩
  | .arr [a, b] => do return ⟨← a.str?, ← b.str?⟩
  | _ => none

def fieldNames : List String :=
  ["pedantic", "enableScopeCache", "anonymousInterfacePrefix", "classBackupSuffix",
   "typeSubstitutions", "disabledPasses"]

/-- Reads options, without checking the rules. -/
def ofJson? (j : Json) : Option Options := do
  let fields ←
    match j with
    | .obj fields => knownFields? fieldNames fields
    | .arr items => leadingFields? fieldNames items
    | _ => none
  let [p, e, a, c, t, d] := fields | none
  return {
    pedantic := ← fieldOr false Json.bool? p
    enableScopeCache := ← fieldOr true Json.bool? e
    anonymousInterfacePrefix := ← fieldOr "Anon" Json.str? a
    classBackupSuffix := ← fieldOr "Cls" Json.str? c
    typeSubstitutions := ← fieldOr [] (Json.list? substitutionOfJson?) t
    disabledPasses := ← fieldOr [] (Json.list? Json.str?) d }

/-- Reads options and checks the rules. -/
def ofJson (j : Json) : Except OptionsError Options := do
  match ofJson? j with
  | none => throw .notParsed
  | some o =>
    o.validate
    return o

/-- Reads options from a text and checks the rules. -/
def parse (text : String) : Except OptionsError Options :=
  match Json.parse? text with
  | none => .error .notParsed
  | some j => ofJson j

end Options

end Ambient
