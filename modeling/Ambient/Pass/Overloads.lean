import Ambient.Tree.Strip
import Ambient.Walk.Basic

/-!
# One comment for several overloads

Functions or methods of one name that repeat each other's comment keep it on the first of them.
-/

namespace Ambient

/-- A name and the author's texts that stand on it. -/
abbrev Commented := Ident × List String

def Decl.commented? : Decl → Option Commented
  | .function f => some (f.name, f.info.comments.rawTexts)
  | _ => none

def Member.commented? : Member → Option Commented
  | .function m => some (m.name, m.info.comments.rawTexts)
  | _ => none

/-- Strips the elements whose name and texts are among those `seen` before. -/
def dropRepeated {α : Type} (commented? : α → Option Commented) (strip : α → α) :
    List Commented → List α → Edited (List α)
  | _, [] => .keep []
  | seen, a :: as =>
    match commented? a with
    | none | some (_, []) => List.cons a <$> dropRepeated commented? strip seen as
    | some c =>
      if seen.contains c then
        .new (strip a :: (dropRepeated commented? strip seen as).value)
      else
        List.cons a <$> dropRepeated commented? strip (seen ++ [c]) as

def overloadHooks : Hooks Id Unit :=
  { Hooks.idle fun _ _ => () with
    newMembers := fun _ _ ds => (dropRepeated Decl.commented? Decl.strip [] ds).toOption
    newClassMembers := fun _ _ ms =>
      (dropRepeated Member.commented? Member.strip [] ms).toOption }

/-- Keeps each comment of a file's functions and methods on the first overload that has it. -/
def keepFirstOverloadComment (f : File) : Edited File :=
  Id.run (walkFile overloadHooks () f)

end Ambient
