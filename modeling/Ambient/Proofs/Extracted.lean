import Ambient.Pipeline
import Ambient.Proofs.Becomes

/-!
# A library that interfaces were extracted from

What is known of the file and the record that a run gives (`Extracted`), if the library was taken up
anew (`recordAnew_extracted`): every replacement of a literal is settled, and every container is found
in its place, with what became of its declarations and the interfaces that it was given.
-/

namespace Ambient

/-- Extracts interfaces from a file that is taken up anew, and keeps a record. -/
def recordAnew (stem : String) (root : Root) (remember : Bool) (f : File) :
    Except Failure (Edited File × Record) := do
  let session : Session := { memo := if remember then some {} else none }
  let (f, _) := f.number root.deps.nextId
  return (← (recordExtraction stem (Scope.ofRoot root) f).run session).1

/-- What holds of the file `g` and the record that a run gives for the numbered file `f`. -/
structure Extracted (root : Root) (f g : File) (log : Record) : Prop where
  numbered : root.Numbered f
  settled : ∀ {later earlier s t p}, log = later ++ .replaced s t p :: earlier →
    Settled root f later s t p
  made : ∀ {c is}, log.Gives c is → ∀ i ∈ is, log.Makes c i
  explained : log.Explained
  becomes : (Node.file f).Becomes log (.ofRoot root) (.file g)
  once : (log.filterMap Event.ids?).Nodup

section
variable {root : Root} (hdeps : root.deps.InOrder) (stem : String) (remember : Bool) (f : File)
include hdeps

theorem runAnew_eq_recordAnew : (Pass.extractInterfaces stem).runAnew root remember f =
    (recordAnew stem root remember f).map (·.1) := by
  have hnum := Root.numbered_number hdeps f
  obtain ⟨hplain, -⟩ := recordExtraction_spec hnum stem
    (Session.faithful_fresh hnum.territory.apart remember)
  simp only [Pass.runAnew, Pass.run, recordAnew, hplain]
  cases (recordExtraction stem (.ofRoot root) (f.number root.deps.nextId).1).run
    { memo := if remember then some {} else none } with
  | error e | ok r => rfl

theorem recordAnew_extracted {e : Edited File} {log : Record}
    (h : recordAnew stem root remember f = .ok (e, log)) :
    Extracted root (f.number root.deps.nextId).1 e.value log := by
  have hnum := Root.numbered_number hdeps f
  simp only [recordAnew] at h
  obtain ⟨⟨⟨file, log'⟩, σ'⟩, hr, h⟩ := bind_eq_ok.1 h
  cases h
  obtain ⟨-, hrec⟩ := recordExtraction_spec hnum stem
    (Session.faithful_fresh hnum.territory.apart remember)
  obtain ⟨hset, hmade⟩ := hrec _ _ _ hr
  obtain ⟨hexpl, hbec⟩ := recordExtraction_becomes hr
  exact ⟨hnum, fun hlog => hset _ _ _ _ _ hlog, fun his => hmade _ _ his, hexpl, hbec,
    recordExtraction_once hnum hr⟩

end

namespace Extracted

variable {root : Root} {f g : File} {log later earlier : Record} {s : Scope} {t : Ty} {p : Placement}
  (h : Extracted root f g log)
include h

theorem counterpart (hs : root.Inside f s) {c : Scope} (hc : c ∈ s.containers) :
    ∃ c', root.Beside f g c c' ∧ List.Forall₂
      (fun d d' => root.Beside f g d d' ∧ Filled log.Gives d d') c.containers c'.containers := by
  have hany : c.current?.any Node.isContainer = true := (List.mem_filter.1 hc).2
  obtain ⟨n, hn, hcont⟩ : ∃ n, c.current? = some n ∧ n.isContainer = true := by
    cases hn : c.current? with
    | none => simp [hn] at hany
    | some n => exact ⟨n, rfl, by simpa [hn] using hany⟩
  have hpart : n.isPart = false := by
    refine Bool.eq_false_iff.2 fun hpart => ?_
    rw [Node.isContainer_of_isQuiet (Node.isQuiet_of_isPart hpart)] at hcont
    cases hcont
  obtain ⟨-, c', -, -, hbes, -, -, hconts⟩ :=
    (hs.container hc).counterpart (h.becomes.turns rfl) hn hpart
  exact ⟨c', hbes, hconts⟩

theorem given_eq (hlog : log = later ++ .replaced s t p :: earlier) {c : Scope} {is is' : Pending}
    (hnext : later.next? c = some is) (hgiven : log.Gives c is') : is' = is := by
  obtain ⟨c', hkey, hlater⟩ := Record.gives_of_next? hnext
  have hmem : log.Gives c' is := hlog ▸ List.mem_append_left _ hlater
  exact Record.gives_inj h.once hgiven hmem hkey.symm

end Extracted

end Ambient
