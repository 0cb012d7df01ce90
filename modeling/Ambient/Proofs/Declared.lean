import Ambient.Proofs.Meaning

/-!
# What a container declares

Which declarations of a container have a name of their own there (`Decl.localName?`), with those of
its global blocks (`Shown`). A search that finds nothing under a name has seen that no container around
declares it (`undeclared_of_meaning`). What an import binds has one of the names that it lists
(`importRealm`).
-/

namespace Ambient

/-- The name under which a declaration is found where it stands. A module is found by its name only as
a module. -/
def Decl.ownName? : Decl → Option Ident
  | .module _ _ | .augmentation _ _ => none
  | d => d.name?

/-- The name under which a declaration, or the one that it exports where it stands, is found. -/
def Decl.localName? (d : Decl) : Option Ident := d.unwrapExport.ownName?

/-- The declarations `ds` at `s`, with those of the global blocks among them. -/
inductive Shown : Scope → List Decl → Scope → Decl → Prop
  | here {s : Scope} {ds : List Decl} {d : Decl} (hd : d ∈ ds) : Shown s ds s d
  | block {s : Scope} {ds : List Decl} {h : GlobalHead} {ms : List Decl} {s₁ : Scope} {d : Decl}
    (hms : .global h ms ∈ ds) (hd : Shown (s.enter (.decl (.global h ms))) ms s₁ d) :
    Shown s ds s₁ d

/-- The declaration is among those of the container or of a global block in it. -/
def Scope.Shows (c s : Scope) (d : Decl) : Prop := Shown c c.members s d

namespace Shown

variable {s s₁ : Scope} {ds es : List Decl} {d : Decl}

theorem mono (h : Shown s ds s₁ d) (hds : ds ⊆ es) : Shown s es s₁ d := by
  cases h with
  | here hd => exact .here (hds hd)
  | block hms hd => exact .block (hds hms) hd

theorem nil_false (h : Shown s [] s₁ d) : False := by
  cases h with
  | here hd => cases hd
  | block hms => cases hms

theorem cons_iff {e : Decl} : Shown s (e :: ds) s₁ d ↔ Shown s [e] s₁ d ∨ Shown s ds s₁ d := by
  constructor
  · rintro (hd | ⟨hms, hd⟩)
    · rcases List.mem_cons.1 hd with rfl | hd
      · exact .inl (.here (.head _))
      · exact .inr (.here hd)
    · rcases List.mem_cons.1 hms with rfl | hms
      · exact .inl (.block (.head _) hd)
      · exact .inr (.block hms hd)
  · rintro (h | h)
    · exact h.mono (List.cons_subset_cons _ (List.nil_subset _))
    · exact h.mono (List.subset_cons_self _ _)

theorem singleton_iff {e : Decl} : Shown s [e] s₁ d ↔ s₁ = s ∧ d = e ∨
    ∃ h ms, e = .global h ms ∧ Shown (s.enter (.decl (.global h ms))) ms s₁ d := by
  constructor
  · rintro (hd | ⟨hms, hd⟩)
    · exact .inl ⟨rfl, List.mem_singleton.1 hd⟩
    · exact .inr ⟨_, _, (List.mem_singleton.1 hms).symm, hd⟩
  · rintro (⟨rfl, rfl⟩ | ⟨h, ms, rfl, hd⟩)
    · exact .here (.head _)
    · exact .block (.head _) hd

end Shown

/-! ## The names that an import lists -/

/-- The names that a form of an import brings in. -/
def Imported.binds : Imported → List Ident
  | .name x => [x]
  | .destructured xs => xs.map fun (x, y) => y.getD x
  | .star x => x.toList

def ImportDecl.binds (i : ImportDecl) : List Ident := i.imported.flatMap Imported.binds

theorem mem_bindAll {x : Ident} {fs : List Found} {b : Binding} (h : b ∈ bindAll x fs) : b.name = x := by
  obtain ⟨f, -, rfl⟩ := List.mem_map.1 h
  rfl

theorem mem_rebind {x y : Ident} {bs : List Binding} {b : Binding} (h : b ∈ rebind x y bs) :
    b.name = y := mem_bindAll h

section
variable {given : (q : Question) → q.Answer → Prop} {xs : List Ident}

theorem importForms_names {plain : Ident → Search (List Binding)} (modules : List Found)
    (forms : List Imported)
    (hplain : ∀ x, (plain x).Ensures (fun _ => True) given fun bs => ∀ b ∈ bs, b.name = x) :
    (importForms plain modules forms).Ensures (fun _ => True) given fun bs =>
      ∀ b ∈ bs, b.name ∈ forms.flatMap Imported.binds := by
  refine .concatMapM fun form hform => ?_
  have hnames : ∀ x ∈ form.binds, x ∈ forms.flatMap Imported.binds := fun x hx =>
    List.mem_flatMap.2 ⟨form, hform, hx⟩
  match form, hnames with
  | .name x, hnames =>
    refine (hplain x).mono (fun _ h => h) fun bs hbs b hb => ?_
    exact hbs b hb ▸ hnames x (.head _)
  | .star (some x), hnames => exact .done fun b hb => mem_bindAll hb ▸ hnames x (.head _)
  | .star none, _ => exact .done fun b hb => absurd hb List.not_mem_nil
  | .destructured xs, hnames =>
    refine .concatMapM fun f _ => (Search.Ensures.any (exportedBy f.inner)).bind fun bs _ => ?_
    refine .done fun b hb => ?_
    obtain ⟨⟨x, y⟩, hxy, hb⟩ := List.mem_flatMap.1 hb
    exact mem_rebind hb ▸ hnames _ (List.mem_map_of_mem hxy)

theorem importSearch_names (s : Scope) (i : ImportDecl) :
    (importSearch s i).Ensures (fun _ => True) given fun bs => ∀ b ∈ bs, b.name ∈ i.binds := by
  unfold importSearch
  split
  · refine .concatMapM fun form hform => ?_
    split
    · refine .bind (.any _) fun fs _ => .done fun b hb => ?_
      exact mem_bindAll hb ▸ List.mem_flatMap.2 ⟨_, hform, .head _⟩
    · exact .done fun b hb => absurd hb List.not_mem_nil
  · exact importForms_names _ _ fun x => .done fun b hb => mem_bindAll hb
  · refine importForms_names _ _ fun x => .concatMapM fun f _ => ?_
    exact .bind (.any _) fun bs _ => .done fun b hb => mem_rebind hb

end

/-- All questions, where an import is known to bind only names that it lists. -/
def importRealm : Realm where
  asked _ := True
  given
    | .imported _ i, bs => ∀ b ∈ bs, b.name ∈ i.binds
    | _, _ => True
  search q _ := by
    cases q with
    | imported s i => exact importSearch_names s i
    | _ => exact .any _
  unanswered q _ := by
    cases q with
    | imported s i => exact List.forall_mem_nil _
    | _ => exact True.intro

/-! ## What a search for a name sees -/

theorem findIn_eq (x : Ident) (s : Scope) {d : Decl} (hg : ∀ h ms, d ≠ .global h ms)
    (hi : ∀ i, d ≠ .imports i) :
    findIn x s d = pure (if d.localName? = some x then [⟨d.unwrapExport, s⟩] else []) := by
  cases d with
  | global h ms => exact absurd rfl (hg h ms)
  | imports i => exact absurd rfl (hi i)
  | exports h e =>
    cases e with
    | inline e => cases e <;> rfl
    | _ => rfl
  | _ => rfl

mutual

theorem findIn_undeclared (x : Ident) (s : Scope) (d : Decl) :
    (findIn x s d).Ensures (fun _ => True) (fun _ _ => True) fun fs => fs = [] →
      ∀ {s₁ e}, Shown s [d] s₁ e → e.localName? ≠ some x := by
  cases d with
  | global h ms =>
    refine (findInList_undeclared x (s.enter (.decl (.global h ms))) ms).mono (fun _ h => h) ?_
    intro fs hfs hnil s₁ e he
    rcases Shown.singleton_iff.1 he with ⟨-, rfl⟩ | ⟨h', ms', hd, he⟩
    · nofun
    · cases hd
      exact hfs hnil he
  | imports i =>
    refine .mono (.any _) (fun _ h => h) ?_
    intro fs _ _ s₁ e he
    rcases Shown.singleton_iff.1 he with ⟨-, rfl⟩ | ⟨h', ms', hd, -⟩
    · nofun
    · cases hd
  | _ =>
    rw [findIn_eq x s]
    · refine .done fun hnil s₁ e he => ?_
      rcases Shown.singleton_iff.1 he with ⟨-, rfl⟩ | ⟨h', ms', hd, -⟩
      · intro hx
        rw [if_pos hx] at hnil
        cases hnil
      · cases hd
    · nofun
    · nofun

theorem findInList_undeclared (x : Ident) (s : Scope) (ds : List Decl) :
    (findInList x s ds).Ensures (fun _ => True) (fun _ _ => True) fun fs => fs = [] →
      ∀ {s₁ e}, Shown s ds s₁ e → e.localName? ≠ some x := by
  match ds with
  | [] => exact .done fun _ _ _ he => he.nil_false.elim
  | d :: ds =>
    refine (findIn_undeclared x s d).bind fun fs hfs => ?_
    refine (findInList_undeclared x s ds).bind fun gs hgs => .done fun hnil s₁ e he => ?_
    obtain ⟨rfl, rfl⟩ := List.append_eq_nil_iff.1 hnil
    exact (Shown.cons_iff.1 he).elim (hfs rfl) (hgs rfl)

end

theorem Search.Ensures.firstNonempty_empty {α β : Type} {asked : Question → Prop}
    {given : (q : Question) → q.Answer → Prop} {P : α → Prop} {f : α → Search (List β)}
    {cs : List α} (h : ∀ c ∈ cs, (f c).Ensures asked given fun bs => bs = [] → P c) :
    (Ambient.firstNonempty f cs).Ensures asked given fun bs => bs = [] → ∀ c ∈ cs, P c := by
  induction cs with
  | nil => exact fun _ _ hc => absurd hc List.not_mem_nil
  | cons c cs ih =>
    refine (h c (.head _)).bind fun bs hbs => ?_
    cases bs with
    | nil =>
      refine (ih fun c hc => h c (.tail _ hc)).mono (fun _ h => h) ?_
      exact fun bs hcs hnil => List.forall_mem_cons.2 ⟨hbs rfl, hcs hnil⟩
    | cons b bs => exact fun hnil => nomatch hnil

theorem Scope.denotes_of_ensures {s : Scope} {picker : Picker} {head : Ident} {tail : List Ident}
    (hs : s.isSettled (head :: tail) = false) {post : List Found → Prop}
    (h : (lookupThrough picker s head tail).Ensures importRealm.asked importRealm.given post) :
    post (s.denotes picker (head :: tail)) := by
  obtain ⟨σ, hspec⟩ := s.denotes_spec picker (head :: tail)
  have hrun := hspec (s.searchBound 1 + 1) (Nat.le_succ _)
  rw [answerWithin_name hs _ rfl] at hrun
  exact ((answerWithin_after importRealm _ _).run h (Session.faithful_of_none _ rfl) hrun).1

/-- **A name that means nothing is declared in no container around**, if it is not settled. -/
theorem undeclared_of_meaning {s : Scope} {x : Ident} (hx : s.isSettled [x] = false)
    (h : s.meaning [x] = []) {c : Scope} (hc : c ∈ s.outwards.filter Scope.isContainer)
    {s₁ : Scope} {d : Decl} (hd : c.Shows s₁ d) : d.localName? ≠ some x := by
  have hin : ∀ c, (lookupInside .all x [] c).Ensures importRealm.asked importRealm.given
      fun fs => fs = [] → ∀ s₁ d, c.Shows s₁ d → d.localName? ≠ some x := by
    intro c
    have hfind := findInList_undeclared x c c.members
    refine (hfind.imp (fun _ h => h) (fun _ _ _ _ => trivial) fun _ h => h).bind fun fs hfs => ?_
    exact .done fun hnil s₁ d hd => hfs (by simpa [Picker.pick] using hnil) hd
  have hsees : (lookupThrough .all s x []).Ensures importRealm.asked importRealm.given fun fs =>
      fs = [] → ∀ c ∈ s.outwards.filter Scope.isContainer, ∀ s₁ d, c.Shows s₁ d →
        d.localName? ≠ some x := by
    refine (Search.Ensures.firstNonempty_empty fun c _ => hin c).bind fun fs hfs => ?_
    cases fs with
    | cons f fs => exact .done fun hnil => nomatch hnil
    | nil => exact .mono (.any _) (fun _ h => h) fun _ _ _ => hfs rfl
  exact Scope.denotes_of_ensures hx hsees h c hc s₁ d hd

end Ambient
