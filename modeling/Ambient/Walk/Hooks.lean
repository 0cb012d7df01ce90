import Ambient.Tree.Edit

/-!
# Hooks of a walk

A transformation of trees is given by what it does at each kind of node. On the way down, `enter`
hooks see a node before its parts and may change its head: the place of a file or declaration, the
name of a reference or of a parameter. On the way up, `leave` hooks see the node with its parts done
and may replace it. `newMembers` and `newClassMembers` see the finished members of a container and
of a class, interface or object type, and may replace the whole list.

A hook answers `none` to keep what it was given.
-/

namespace Ambient

/-- What a transformation does at each kind of node. -/
structure Hooks (m : Type → Type) (Ctx : Type) where
  /-- The context that a node and its parts see. -/
  within : Ctx → Node → Ctx
  enterFile : Ctx → File → m (Option CodePath)
  enterDecl : Ctx → Decl → m (Option CodePath)
  enterMember : Ctx → Member → m Unit
  enterTy : Ctx → Ty → m (Option QIdent)
  enterSig : Ctx → Signature → m Unit
  enterParam : Ctx → Param → m (Option Ident)
  enterTypeParam : Ctx → TypeParam → m Unit
  enterExpr : Ctx → Expr → m Unit
  newMembers : Ctx → Node → List Decl → m (Option (List Decl))
  newClassMembers : Ctx → Node → List Member → m (Option (List Member))
  leaveFile : Ctx → File → m (Option File)
  leaveDecl : Ctx → Decl → m (Option Decl)
  leaveMember : Ctx → Member → m (Option Member)
  leaveTy : Ctx → Ty → m (Option Ty)
  leaveSig : Ctx → Signature → m (Option Signature)
  leaveParam : Ctx → Param → m (Option Param)
  leaveTypeParam : Ctx → TypeParam → m (Option TypeParam)
  leaveExpr : Ctx → Expr → m (Option Expr)

/-- The transformation that keeps every node. -/
def Hooks.idle {m : Type → Type} [Monad m] {Ctx : Type} (within : Ctx → Node → Ctx) :
    Hooks m Ctx where
  within := within
  enterFile _ _ := return none
  enterDecl _ _ := return none
  enterMember _ _ := return ()
  enterTy _ _ := return none
  enterSig _ _ := return ()
  enterParam _ _ := return none
  enterTypeParam _ _ := return ()
  enterExpr _ _ := return ()
  newMembers _ _ _ := return none
  newClassMembers _ _ _ := return none
  leaveFile _ _ := return none
  leaveDecl _ _ := return none
  leaveMember _ _ := return none
  leaveTy _ _ := return none
  leaveSig _ _ := return none
  leaveParam _ _ := return none
  leaveTypeParam _ _ := return none
  leaveExpr _ _ := return none

end Ambient
