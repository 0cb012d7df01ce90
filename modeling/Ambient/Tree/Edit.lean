import Ambient.Tree.Node
import Ambient.Violation

/-!
# Edits of a single declaration

Each edit replaces one part of a declaration and keeps the others. An edit of a part that the
declaration does not have answers `none`: the declaration stays as it is. Renaming can be refused.
-/

namespace Ambient

/-- The node information with other comments. -/
def NodeInfo.withComments (i : NodeInfo) (cs : Comments) : NodeInfo :=
  { i with comments := cs }

namespace Decl

/-- The declaration at another place. -/
def withCodePath? (p : CodePath) : Decl → Option Decl
  | .space h ms => some (.space { h with codePath := p } ms)
  | .module h ms => some (.module { h with codePath := p } ms)
  | .augmentation h ms => some (.augmentation { h with codePath := p } ms)
  | .global h ms => some (.global { h with codePath := p } ms)
  | .cls c => some (.cls { c with codePath := p })
  | .iface i => some (.iface { i with codePath := p })
  | .enum e => some (.enum { e with codePath := p })
  | .var v => some (.var { v with codePath := p })
  | .function f => some (.function { f with codePath := p })
  | .typeAlias a => some (.typeAlias { a with codePath := p })
  | .imports _ | .exports _ _ | .exportAs _ => none

/-- The declaration with other comments. -/
def withComments? (cs : Comments) : Decl → Option Decl
  | .space h ms => some (.space { h with info := h.info.withComments cs } ms)
  | .module h ms => some (.module { h with info := h.info.withComments cs } ms)
  | .augmentation h ms => some (.augmentation { h with info := h.info.withComments cs } ms)
  | .global h ms => some (.global { h with info := h.info.withComments cs } ms)
  | .cls c => some (.cls { c with info := c.info.withComments cs })
  | .iface i => some (.iface { i with info := i.info.withComments cs })
  | .enum e => some (.enum { e with info := e.info.withComments cs })
  | .var v => some (.var { v with info := v.info.withComments cs })
  | .function f => some (.function { f with info := f.info.withComments cs })
  | .typeAlias a => some (.typeAlias { a with info := a.info.withComments cs })
  | .exports h e => some (.exports { h with info := h.info.withComments cs } e)
  | .imports _ | .exportAs _ => none

/-- The container with other declarations in it. -/
def withMembers? (ms : List Decl) : Decl → Option Decl
  | .space h _ => some (.space h ms)
  | .module h _ => some (.module h ms)
  | .augmentation h _ => some (.augmentation h ms)
  | .global h _ => some (.global h ms)
  | _ => none

/-- The class or interface with other members. -/
def withClassMembers? (ms : List Member) : Decl → Option Decl
  | .cls c => some (.cls { c with members := ms })
  | .iface i => some (.iface { i with members := ms })
  | _ => none

/-- The declaration under another name, its place moved along.

A call target stands for its owner and a module is found by its name, so neither can be renamed. -/
def renamed (d : Decl) (x : Ident) : Except Violation Decl :=
  match d.name? with
  | none => .error .unnamed
  | some old =>
    if old = Ident.apply ∧ x ≠ Ident.apply then
      .error (.renameCallTarget x (d.codePath?.getD .noPath))
    else
      match d with
      | .space h ms =>
        .ok (.space { h with name := x, codePath := h.codePath.renameLast x } ms)
      | .cls c => .ok (.cls { c with name := x, codePath := c.codePath.renameLast x })
      | .iface i => .ok (.iface { i with name := x, codePath := i.codePath.renameLast x })
      | .enum e => .ok (.enum { e with name := x, codePath := e.codePath.renameLast x })
      | .var v => .ok (.var { v with name := x, codePath := v.codePath.renameLast x })
      | .function f => .ok (.function { f with name := x, codePath := f.codePath.renameLast x })
      | .typeAlias a => .ok (.typeAlias { a with name := x, codePath := a.codePath.renameLast x })
      | .module _ _ | .augmentation _ _ => .error (.renameModule old)
      | .global _ _ | .imports _ | .exports _ _ | .exportAs _ => .error .unnamed

end Decl

end Ambient
