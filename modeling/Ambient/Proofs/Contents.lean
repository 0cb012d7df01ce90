import Ambient.Proofs.Output
import Ambient.Tree.Number

/-!
# What a tree says, identities apart

The contents of a tree are all that it says, with its comments but without the identities of its nodes.
-/

namespace Ambient

/-! ## Forgetting identities -/

/-- What a node carries, with its identity forgotten. -/
def NodeInfo.contents (i : NodeInfo) : NodeInfo :=
  { i with id := 0 }

/-- The head of an export with its identity forgotten. -/
def ExportHead.contents (h : ExportHead) : ExportHead :=
  { h with info := { h.info with id := 0 } }

def Ty.contents (t : Ty) : Ty :=
  Id.run (t.renumber fun _ => pure 0)

def Ty.contentsList (ts : List Ty) : List Ty :=
  Id.run (Ty.renumberList (fun _ => pure 0) ts)

def Ty.contentsOption (t : Option Ty) : Option Ty :=
  Id.run (Ty.renumberOption (fun _ => pure 0) t)

def TupleElem.contentsList (es : List TupleElem) : List TupleElem :=
  Id.run (TupleElem.renumberList (fun _ => pure 0) es)

def TypeParam.contents (p : TypeParam) : TypeParam :=
  Id.run (p.renumber fun _ => pure 0)

def TypeParam.contentsList (ps : List TypeParam) : List TypeParam :=
  Id.run (TypeParam.renumberList (fun _ => pure 0) ps)

def Param.contents (p : Param) : Param :=
  Id.run (p.renumber fun _ => pure 0)

def Param.contentsList (ps : List Param) : List Param :=
  Id.run (Param.renumberList (fun _ => pure 0) ps)

def Signature.contents (s : Signature) : Signature :=
  Id.run (s.renumber fun _ => pure 0)

def Member.contents (m : Member) : Member :=
  Id.run (m.renumber fun _ => pure 0)

def Member.contentsList (ms : List Member) : List Member :=
  Id.run (Member.renumberList (fun _ => pure 0) ms)

/-- What stands between brackets, with the identities of all nodes forgotten. -/
def Indexing.contents : Indexing → Indexing
  | .dict x t => .dict x t.contents
  | .single x => .single x

def Expr.contents (e : Expr) : Expr :=
  Id.run (e.renumber fun _ => pure 0)

def Expr.contentsList (es : List Expr) : List Expr :=
  Id.run (Expr.renumberList (fun _ => pure 0) es)

def Expr.contentsOption (e : Option Expr) : Option Expr :=
  Id.run (Expr.renumberOption (fun _ => pure 0) e)

def EnumMember.contents (m : EnumMember) : EnumMember :=
  Id.run (m.renumber fun _ => pure 0)

def EnumMember.contentsList (ms : List EnumMember) : List EnumMember :=
  Id.run (ms.mapM (EnumMember.renumber fun _ => pure 0))

def Decl.contents (d : Decl) : Decl :=
  Id.run (d.renumber fun _ => pure 0)

def Decl.contentsList (ds : List Decl) : List Decl :=
  Id.run (Decl.renumberList (fun _ => pure 0) ds)

def Exportee.contents (x : Exportee) : Exportee :=
  Id.run (x.renumber fun _ => pure 0)

def File.contents (f : File) : File :=
  Id.run (f.renumber fun _ => pure 0)

theorem EnumMember.contentsList_cons (m : EnumMember) (ms : List EnumMember) :
    EnumMember.contentsList (m :: ms) = m.contents :: EnumMember.contentsList ms := by
  simp [EnumMember.contentsList, EnumMember.contents, List.mapM_cons]

theorem Decl.Links.of_contents {d d' : Decl} (hd : d.Links) (h : d'.contents = d.contents) : d'.Links := by
  cases hd <;> cases d' <;> try cases h
  case imports.imports i j => exact .imports j
  case exportAs.exportAs e e' => exact .exportAs e'
  case names.exports _ _ _ h' x =>
    have hx := (Decl.exports.inj h).2
    cases x with
    | names ys m' => exact .names h' ys m'
    | inline d | star y m' => cases hx
  case star.exports _ _ _ h' x =>
    have hx := (Decl.exports.inj h).2
    cases x with
    | star y m' => exact .star h' y m'
    | inline d | names ys m' => cases hx

end Ambient
