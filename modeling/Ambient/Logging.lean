import Ambient.Text.Blank
import Ambient.Text.Lower

/-!
# What to log

Which events are logged and in which layout, as three settings say: a filter of the program's own,
a general filter, and a layout. A bare level as the program's own filter means that level for each
of the program's parts.
-/

namespace Ambient

inductive LogFormat where
  | text
  | tree
  | json
  deriving DecidableEq, Repr

/-- The layout of that name; any other text means plain text. -/
def LogFormat.ofText (s : String) : LogFormat :=
  match Text.toLower (Text.trim s) with
  | "tree" => .tree
  | "json" => .json
  | _ => .text

structure LogSettings where
  filter : String
  format : LogFormat
  deriving DecidableEq, Repr

namespace LogSettings

/-- The parts of the program that log. -/
def targets : List String :=
  ["tsnorm", "tsnorm_tree", "tsnorm_scope", "tsnorm_transform", "tsnorm_passes"]

/-- Is the text a level, upper and lower case apart? -/
def isLevel (s : String) : Bool :=
  ["trace", "debug", "info", "warn", "error", "off"].contains (Text.toLower s)

/-- The filter that the program's own setting means. -/
def ownFilter (setting : String) : String :=
  let s := Text.trim setting
  if isLevel s then ",".intercalate (targets.map fun t => t ++ "=" ++ s) else s

/-- The settings, if there is a filter: the program's own, or else the general one as it stands. -/
def ofVars (own general format : Option String) : Option LogSettings :=
  let format := LogFormat.ofText (format.getD "")
  match own, general with
  | some own, _ => some ⟨ownFilter own, format⟩
  | none, some general => some ⟨general, format⟩
  | none, none => none

end LogSettings

end Ambient
