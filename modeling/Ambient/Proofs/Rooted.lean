import Ambient.Proofs.Memory

/-!
# Declarations are found where they stand

Who finds a declaration goes on from the scope that it is found with, by entering it. So the two have
to fit: the declaration stands in the container that this scope is directly inside, or is a library
seen as a module and found at the root of that library (`Scope.Holds`).

All scopes with the same dependencies are a territory (`Dependencies.territory`). So whatever scope a
lookup starts from and whatever trail it is on, all that it finds is well rooted
(`lookup_well_rooted`).
-/

namespace Ambient

/-- All scopes with these dependencies, with all that is declared there. -/
def Dependencies.territory (deps : Dependencies) : Territory where
  scope s := s.root.deps = deps
  stands s d := d ∈ s.members
  found s d := s.Holds d
  name _ _ := True
  ty _ _ := True
  plain := False
  container hs hc _ := (congrArg Root.deps (Scope.mem_outwards.1 hc).1).trans hs
  root hs hr := by
    obtain ⟨lib, -, rfl⟩ := (Scope.dependencyRoot?_eq rfl).1 hr
    exact hs
  file hs hs' := by
    obtain ⟨lib, -, rfl⟩ := (Scope.dependencyScope?_eq rfl).1 hs'
    exact hs
  enter hs _ := hs
  member _ hd := hd
  held _ hd := hd
  exportee _ he := .inr (.inl ⟨_, he⟩)
  lookedUp _ _ _ := trivial
  followed _ _ _ _ _ _ _ := trivial
  target _ _ _ _ _ := trivial
  part _ _ _ _ _ _ _ := trivial
  tyName _ _ _ _ _ _ := trivial

/-- The lookup is answered. Each declaration that it finds is picked, is found in a scope with the
same dependencies, and stands there. -/
def FindsRooted (s : Scope) (picker : Picker) (q : QIdent) (T : Trail) (σ : Session) : Prop :=
  ∃ fs σ', (s.lookupWith picker q T).run σ = .ok (fs, σ') ∧
    ∀ f ∈ fs, picker.pick f.decl = true ∧ f.scope.root.deps = s.root.deps ∧ f.scope.Holds f.decl

theorem Query.In.findsRooted {s : Scope} {picker : Picker} {q : QIdent} {D : Realm}
    (hQ : (Query.lookup s picker q).In D) (T : Trail) {σ : Session} (hσ : σ.Faithful D) :
    FindsRooted s picker q T σ := by
  let E := D.inter s.root.deps.territory.realm
  have hask : E.asked (.name picker s q) := ⟨hQ.1, rfl, trivial, False.elim⟩
  obtain ⟨⟨fs, σ'⟩, hrun, -⟩ := (Query.ends_of_faithful hQ T hσ).answer
  change (answerWithin (s.searchBound 1) T (.name picker s q)).run σ = .ok (fs, σ') at hrun
  obtain ⟨hgiven, -⟩ := answerWithin_after E _ T _ σ fs σ' hask (hσ.inter _) hrun
  refine ⟨fs, σ', hrun, fun f hf => ?_⟩
  obtain ⟨⟨hdeps, hholds⟩, hpick⟩ := hgiven.2 f hf
  exact ⟨hpick, hdeps, hholds⟩

/-- **All that a lookup finds is well rooted**, from any scope, for any picker and name, on any trail
and with any number of cuts so far: without a memory, and with one that holds ideal answers. -/
theorem lookup_well_rooted (s : Scope) (picker : Picker) (q : QIdent) (T : Trail) :
    (∀ cuts, FindsRooted s picker q T ⟨cuts, none⟩) ∧
      ∀ (D : Realm) (σ : Session), (Query.lookup s picker q).In D → σ.Faithful D →
        FindsRooted s picker q T σ :=
  ⟨fun _ => (Query.in_territory _).findsRooted T (Session.faithful_of_none _ rfl),
    fun _ _ hQ hσ => hQ.findsRooted T hσ⟩

/-- A file whose import names an interface that a namespace exports. -/
def renamingImport : File where
  info := { id := 1 }
  directives := []
  members := [
    .space ⟨{ id := 2 }, true, "N", .noPath, .zero⟩ [
      .exports ⟨{ id := 3 }, false, .named⟩
        (.inline (.iface ⟨{ id := 4 }, true, "I", [], [], [], .noPath⟩))],
    .imports { id := 5, typeOnly := false, imported := [.name "A"], source := .inner ["N", "I"] }]
  codePath := .noPath

def renamingScope : Scope :=
  (Scope.ofRoot ⟨"lib", false, .empty⟩).enter (.file renamingImport)

theorem lookup_well_rooted_through_import :
    ((renamingScope.lookupWith .types ["A"] []).run {}).toOption.map (·.1.length) = some 1 ∧
      (Query.lookup renamingScope .types ["A"]).In
        (Start.territory { scope := renamingScope, names := [["A"]] }).realm ∧
      Session.Faithful (Start.territory { scope := renamingScope, names := [["A"]] }).realm
        { memo := some {} } ∧
      FindsRooted renamingScope .types ["A"] [] {} ∧
      FindsRooted renamingScope .types ["A"] [] { memo := some {} } := by
  have hnum : (Start.territory { scope := renamingScope, names := [["A"]] }).Numbered :=
    Start.numbered (by decide +kernel) (by decide +kernel) (by decide +kernel)
  have hQ := (Query.lookup renamingScope .types ["A"]).in_territory
  have hσ := Session.faithful_fresh hnum.apart true
  obtain ⟨hplain, hmemo⟩ := lookup_well_rooted renamingScope .types ["A"] []
  exact ⟨by decide +kernel, hQ, hσ, hplain 0, hmemo _ _ hQ hσ⟩

end Ambient
