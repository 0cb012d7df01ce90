import Ambient.Scope.Basic
import Ambient.Tree.Mentions

/-!
# The type parameters that a type depends on

A type depends on a type parameter in force when it mentions it, or mentions one whose bound or
default depends on it.
-/

namespace Ambient

/-- The type parameters that entered nodes declare, by name: outermost first, the innermost
declaration of each name. -/
def declaredParams (outermostFirst : List Node) : List (Ident × TypeParam) :=
  putAll (outermostFirst.flatMap fun n => n.tparams.map fun p => (p.name, p))

/-- The simple names that a type mentions. -/
def Ty.simpleMentions (t : Ty) : List Ident :=
  t.mentions.filterMap QIdent.single?

/-- Adds to `wanted` those of the names that are declared and not in it yet. With each come the
bound and the default of its declaration, put before the types still to be looked at. -/
def wantNames (declared : List (Ident × TypeParam)) :
    List Ident → List Ident → List Ty → List Ident × List Ty
  | [], wanted, pending => (wanted, pending)
  | x :: xs, wanted, pending =>
    if wanted.contains x then wantNames declared xs wanted pending
    else
      match declared.lookup x with
      | none => wantNames declared xs wanted pending
      | some p =>
        wantNames declared xs (wanted ++ [x]) (p.default.toList ++ p.upperBound.toList ++ pending)

/-- Looks at up to the given number of types, and at those that come with the names wanted from
them. -/
def wantedFrom (declared : List (Ident × TypeParam)) :
    Nat → List Ident → List Ty → List Ident
  | 0, wanted, _ => wanted
  | _ + 1, wanted, [] => wanted
  | n + 1, wanted, t :: pending =>
    let (wanted, pending) := wantNames declared t.simpleMentions wanted pending
    wantedFrom declared n wanted pending

/-- The type parameters in force in `s` that `t` depends on, in order of declaration. Each declared
name brings in at most two types, so they can be counted in advance. -/
def Scope.paramsOf (s : Scope) (t : Ty) : List TypeParam :=
  let declared := declaredParams s.stack.reverse
  let wanted := wantedFrom declared (2 * declared.length + 1) [] [t]
  (declared.filter fun (x, _) => wanted.contains x).map (·.2)

end Ambient
