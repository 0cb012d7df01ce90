import Ambient.Proofs.Inert
import Ambient.Proofs.Rewritten
import Ambient.Proofs.Settled

/-!
# Comments are dropped where they are repeated

Of the functions of one name in a container, and of the methods of one name in a class, interface or
object type, one loses its comments exactly if it has some and one before it has the same
(`Thinned`, `dropRepeated_thinned`). Nothing else happens to a file: markers stay, what the file says
stays, and a second run finds nothing to drop (`keepFirstOverloadComment_thins`).
-/

namespace Ambient

/-! ## Lists -/

section
variable {α : Type} (commented? : α → Option Commented) (strip : α → α)

/-- The elements that repeat one before them are stripped, and the others are kept. -/
structure Thinned (as as' : List α) : Prop where
  length : as'.length = as.length
  stripped : ∀ {i a}, as[i]? = some a → Repeated commented? ((as.take i).filterMap commented?) a →
    as'[i]? = some (strip a)
  kept : ∀ {i a}, as[i]? = some a → ¬ Repeated commented? ((as.take i).filterMap commented?) a →
    as'[i]? = some a

variable {commented? strip}

theorem Repeated.congr {seen seen' : List Commented} (h : ∀ c, c.2 ≠ [] → (c ∈ seen ↔ c ∈ seen')) (a : α) :
    Repeated commented? seen a ↔ Repeated commented? seen' a := by
  constructor <;> rintro ⟨c, hc, ha, hne⟩
  · exact ⟨c, (h c hne).1 hc, ha, hne⟩
  · exact ⟨c, (h c hne).2 hc, ha, hne⟩

theorem length_dropRepeated (seen : List Commented) (as : List α) :
    (dropRepeated commented? strip seen as).value.length = as.length := by
  induction as generalizing seen with
  | nil => rfl
  | cons a as ih =>
    obtain ⟨_, seen', heq, -, -⟩ := dropRepeated_cons commented? strip seen a as
    rw [heq, List.length_cons, List.length_cons, ih]

/-- What is seen at an element is what was seen at first and what stands before the element. -/
theorem getElem?_dropRepeated (strip : α → α) (seen : List Commented) {as : List α} {i : Nat} {a : α}
    (ha : as[i]? = some a) :
    ∃ a', (dropRepeated commented? strip seen as).value[i]? = some a' ∧
      (Repeated commented? (seen ++ (as.take i).filterMap commented?) a ∧ a' = strip a ∨
        ¬ Repeated commented? (seen ++ (as.take i).filterMap commented?) a ∧ a' = a) := by
  induction as generalizing seen i with
  | nil => cases ha
  | cons b as ih =>
    obtain ⟨b', seen', heq, hb, hseen⟩ := dropRepeated_cons commented? strip seen b as
    rw [heq]
    cases i with
    | zero =>
      cases ha
      exact ⟨b', rfl, by simpa using hb⟩
    | succ i =>
      obtain ⟨a', ha', h⟩ := ih seen' ha
      have hiff : ∀ c, c.2 ≠ [] → (c ∈ seen' ++ (as.take i).filterMap commented? ↔
          c ∈ seen ++ ((b :: as).take (i + 1)).filterMap commented?) := by
        intro c hc
        rw [List.take_succ_cons, List.filterMap_cons, List.mem_append, hseen c hc, List.mem_append]
        cases commented? b with
        | none => simp
        | some c' => simp [or_assoc, eq_comm]
      rw [Repeated.congr hiff] at h
      exact ⟨a', ha', h⟩

theorem dropRepeated_thinned (as : List α) :
    Thinned commented? strip as (dropRepeated commented? strip [] as).value where
  length := length_dropRepeated [] as
  stripped ha hrep := by
    obtain ⟨a', ha', ⟨-, rfl⟩ | ⟨hnot, -⟩⟩ := getElem?_dropRepeated strip [] ha
    · exact ha'
    · exact absurd hrep hnot
  kept ha hnot := by
    obtain ⟨a', ha', ⟨hrep, -⟩ | ⟨-, rfl⟩⟩ := getElem?_dropRepeated strip [] ha
    · exact absurd hrep hnot
    · exact ha'

theorem dropRepeated_stands {β : Type} {R : β → α → Prop}
    (hstrip : ∀ {b a c}, commented? a = some c → R b a → R b (strip a)) (seen : List Commented)
    {bs : List β} {as : List α} (h : List.Forall₂ R bs as) :
    List.Forall₂ R bs (dropRepeated commented? strip seen as).value := by
  induction h generalizing seen with
  | nil => exact .nil
  | @cons b a bs as hba _ ih =>
    obtain ⟨a', seen', heq, ⟨⟨c, -, hc, -⟩, rfl⟩ | ⟨-, rfl⟩, -⟩ :=
      dropRepeated_cons commented? strip seen a as
    · rw [heq]
      exact .cons (hstrip hc hba) (ih seen')
    · rw [heq]
      exact .cons hba (ih seen')

end

/-! ## What the file says, and its markers -/

/-- Nodes have the same identities and markers. What authors wrote may differ where no names are made. -/
def Leeway.texts : Leeway := ⟨Eq, Comments.SameMarkers, Eq⟩

theorem Leeway.texts_reflexive : Leeway.texts.Reflexive := ⟨fun _ => rfl, fun _ => rfl, fun _ => rfl⟩

theorem Comments.markersOnly_markersOnly (cs : Comments) : cs.markersOnly.markersOnly = cs.markersOnly :=
  List.filter_filter.trans (by simp [markersOnly])

theorem NodeInfo.Twin.stripped {i j : NodeInfo} (h : i.Twin .texts j) : i.Twin .texts j.strip :=
  ⟨h.id, h.comments.trans j.comments.markersOnly_markersOnly.symm⟩

theorem Decl.Twin.stripped {d e : Decl} {c : Commented} (hc : e.commented? = some c) (h : d.Twin .texts e) :
    d.Twin .texts e.strip := by
  cases h with
  | function hf => exact .function { hf with info := hf.info.stripped }
  | _ => cases hc

theorem Member.Twin.stripped {m n : Member} {c : Commented} (hc : n.commented? = some c) (h : m.Twin .texts n) :
    m.Twin .texts n.strip := by
  cases h with
  | function hi hs => exact .function hi.stripped hs
  | _ => cases hc

theorem overloadHooks_twin :
    (Hooks.idle fun _ _ => ()).Twin .ofId .texts False (fun (_ _ : Unit) => True) overloadHooks where
  idle := {}
  idle' := {}
  within _ _ := trivial
  enterFile _ _ := rfl
  enterDecl _ _ := rfl
  newMembers _ _ _ hxs := by
    refine ⟨?_, False.elim⟩
    rw [overloadHooks, Edited.getD_toOption dropRepeated_unchanged]
    exact dropRepeated_stands Decl.Twin.stripped [] hxs
  newClassMembers _ _ _ hxs := by
    refine ⟨?_, False.elim⟩
    rw [overloadHooks, Edited.getD_toOption dropRepeated_unchanged]
    exact dropRepeated_stands Member.Twin.stripped [] hxs
  leaveDecl _ hx := .of_rel hx .none
  leaveTy _ ht := .of_rel ht .none

theorem walkFile_idle (f : File) : Id.run (walkFile (Hooks.idle fun _ (_ : Node) => ()) () f) = .keep f :=
  f.idle_rests.walkFile f .file ()

theorem keepFirstOverloadComment_keeps (f : File) : f.Twin .texts (keepFirstOverloadComment f).value := by
  have hself : f.Twin .texts f := Kind.twin_self Leeway.texts_reflexive .file f
  have hwalk := (walkFile_twin (c := ()) (d := ()) overloadHooks_twin trivial hself).value
  change File.Twin .texts (Id.run (walkFile _ () f)).value _ at hwalk
  rwa [walkFile_idle] at hwalk

/-! ## What becomes of the nodes -/

/-- Repeated comments are dropped in every list of declarations or members. -/
def thinning : Rewriting Unit where
  within _ _ := ()
  decls _ := Thinned Decl.commented? Decl.strip
  members _ := Thinned Member.commented? Member.strip
  ty _ t t' := t' = t

theorem overloadHooks_acts : overloadHooks.Acts computing (fun _ _ => True) thinning where
  idle := {}
  within := rfl
  child _ _ := trivial
  enterFile := rfl
  enterDecl := rfl
  leaveDecl := rfl
  newMembers {_ _ _ _ ds} _ _ _ _ _ := by
    change Thinned _ _ ds ((dropRepeated Decl.commented? Decl.strip [] ds).toOption.getD ds)
    rw [Edited.getD_toOption dropRepeated_unchanged]
    exact dropRepeated_thinned ds
  newClassMembers {_ _ _ ms} _ _ := by
    change Thinned _ _ ms ((dropRepeated Member.commented? Member.strip [] ms).toOption.getD ms)
    rw [Edited.getD_toOption dropRepeated_unchanged]
    exact dropRepeated_thinned ms
  leaveTy _ _ := rfl

section
variable {C : Type} {W : Rewriting C} {c : C}

theorem Node.Rewritten.decl_commented? {d d' : Decl} (h : (Node.decl d).Rewritten W c (.decl d')) :
    d'.commented? = d.commented? := by
  cases d with
  | function f =>
    cases (h.plain rfl rfl fun _ h => by cases h).1 with
    | leaf | function => rfl
  | _ =>
    cases d' with
    | function g =>
      cases (h.of_plain rfl rfl fun _ h => by cases h).1
    | _ => rfl

theorem Node.Rewritten.member_commented? {m m' : Member} (h : (Node.member m).Rewritten W c (.member m')) :
    m'.commented? = m.commented? := by
  cases (h.plain rfl rfl fun _ h => by cases h).1 <;> rfl

end

/-- **Comments are dropped where they are repeated, and nothing else happens.** The file says the same, with
the same markers on every node. A second run gives back the very file. A function or method loses its texts
exactly if there are some and one of its name that stands before it in the list has the same; its own name
and texts are not touched before that. -/
theorem keepFirstOverloadComment_thins (f : File) :
    (f == (keepFirstOverloadComment f).value) = true ∧
      f.Twin .texts (keepFirstOverloadComment f).value ∧
      keepFirstOverloadComment (keepFirstOverloadComment f).value = .keep (keepFirstOverloadComment f).value ∧
      (Node.file f).Rewritten thinning () (.file (keepFirstOverloadComment f).value) ∧
      (∀ {d d'}, (Node.decl d).Rewritten thinning () (.decl d') → d'.commented? = d.commented?) ∧
      ∀ {m m'}, (Node.member m).Rewritten thinning () (.member m') → m'.commented? = m.commented? := by
  have hkeeps := keepFirstOverloadComment_keeps f
  refine ⟨hkeeps.beq, hkeeps, ?_, ?_, Node.Rewritten.decl_commented?, Node.Rewritten.member_commented?⟩
  · exact keepFirstOverloadComment_rests (keepFirstOverloadComment_tidied f).comments.file
  · exact walkFile_rewritten overloadHooks_acts f trivial ()

/-- Three functions `f`. The texts of the last are those of the first, and it has a marker too. -/
def threeOverloads : File :=
  let overload (cs : Comments) : Decl := .function ⟨{ comments := cs }, true, "f", .ofParams [] none, .zero, .noPath⟩
  File.ofMembers "lib"
    [overload [.raw "reads"], overload [.raw "writes"], overload [.raw "reads", .marker (.nameHint "F")]]

/-- The last one loses its text and keeps its marker. -/
theorem keepFirstOverloadComment_thins_last :
    (keepFirstOverloadComment threeOverloads).value.members.map Decl.comments? =
        [some [.raw "reads"], some [.raw "writes"], some [.marker (.nameHint "F")]] ∧
      keepFirstOverloadComment (keepFirstOverloadComment threeOverloads).value =
        .keep (keepFirstOverloadComment threeOverloads).value :=
  ⟨by decide +kernel, (keepFirstOverloadComment_thins threeOverloads).2.2.1⟩

end Ambient
