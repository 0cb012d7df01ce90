import Ambient.Pipeline
import Ambient.Proofs.Meaning
import Ambient.Proofs.Numbering

/-!
# All scopes of a library

The scopes that can be entered in a library and in those it depends on (`Root.Enters`) are a territory
that allows every name (`Root.territory`). If its files were numbered one after the other, the numbers
tell these scopes apart (`Root.Numbered.territory`).
-/

namespace Ambient

/-! ## The territory -/

theorem Scope.mem_members {s : Scope} {d : Decl} :
    d ∈ s.members ↔ ∃ n ds, s.current? = some n ∧ n.members? = some ds ∧ d ∈ ds := by
  unfold members
  cases hn : s.current? with
  | none => simp
  | some n => cases hds : n.members? <;> simp [hds]

/-- The node `n` can be entered from the scope `s` of a library or of one that it depends on. -/
def Root.Next (root : Root) (s : Scope) (n : Node) : Prop :=
  match s.current? with
  | some n₀ => n ∈ n₀.entries
  | none => ∃ x lib, root.deps.find? x = some lib ∧ s = (Scope.ofRoot root).library lib ∧
      n ∈ [.file lib.file, .decl lib.module]

theorem Root.Next.of_mem {root : Root} {s : Scope} {d : Decl} (hd : d ∈ s.members) {n : Node}
    (hn : n ∈ d.entries) : root.Next s n := by
  obtain ⟨n₀, ds, hn₀, hds, hd⟩ := Scope.mem_members.1 hd
  rw [Root.Next, hn₀]
  exact Node.mem_entries hds hd hn

/-- The scopes that can be entered in the library with the file `f`, and in those it depends on. -/
inductive Root.Enters (root : Root) (f : File) : Scope → Prop
  | file : Enters root f ((Scope.ofRoot root).enter (.file f))
  | library {x : Ident} {lib : Dependency} (h : root.deps.find? x = some lib) :
    Enters root f ((Scope.ofRoot root).library lib)
  | enter {s : Scope} {n : Node} (hs : Enters root f s) (hn : root.Next s n) :
    Enters root f (s.enter n)

namespace Root.Enters

variable {root : Root} {f : File} {s : Scope}

theorem entered (h : root.Enters f s) : s.Entered := by
  induction h with
  | file => exact .enter _ (.root root)
  | library h => exact .root _
  | enter _ _ ih => exact .enter _ ih

theorem deps_eq (h : root.Enters f s) : s.root.deps = root.deps := by
  induction h with
  | file | library h => rfl
  | enter _ _ ih => exact ih

theorem container (h : root.Enters f s) {c : Scope} (hc : c ∈ s.outwards)
    (hcont : c.isContainer = true) : root.Enters f c := by
  induction h with
  | file =>
    rcases List.mem_cons.1 hc with rfl | hc
    · exact .file
    · obtain rfl := List.mem_singleton.1 hc
      cases hcont
  | library h => exact List.mem_singleton.1 hc ▸ .library h
  | enter hs hn ih =>
    rcases List.mem_cons.1 hc with rfl | hc
    · exact .enter hs hn
    · exact ih hc

theorem child (h : root.Enters f s) {n n' : Node} (hn : s.current? = some n)
    (hn' : n' ∈ n.children) : root.Enters f (s.enter n') := by
  refine .enter h ?_
  rw [Root.Next, hn]
  exact n.children_subset_entries hn'

theorem next (h : root.Enters f s) {d : Decl} (hd : s.Holds d) : root.Next s (.decl d) := by
  rcases hd with hd | ⟨hx, hd⟩ | ⟨x, lib, hlib, hr, rfl⟩
  · exact .of_mem hd d.mem_entries_self
  · exact .of_mem hd (.tail _ (.head _))
  · rw [h.deps_eq] at hlib
    obtain ⟨lib', hlib', rfl⟩ :=
      (Scope.dependencyRoot?_eq (t := .ofRoot root) h.deps_eq).1 hr
    cases hlib.symm.trans hlib'
    exact ⟨x, lib, hlib, rfl, .tail _ (.head _)⟩

theorem held (h : root.Enters f s) {d : Decl} (hd : s.Holds d) : root.Enters f (s.enter (.decl d)) :=
  .enter h (h.next hd)

end Root.Enters

/-- The scopes of the file itself, as a walk comes to them. -/
inductive Root.Inside (root : Root) (f : File) : Scope → Prop
  | file : Inside root f ((Scope.ofRoot root).enter (.file f))
  | child {s : Scope} {n m : Node} (hs : Inside root f s) (hn : s.current? = some n)
    (hm : m ∈ n.children) : Inside root f (s.enter m)

theorem Root.Inside.enters {root : Root} {f : File} {s : Scope} (h : root.Inside f s) :
    root.Enters f s := by
  induction h with
  | file => exact .file
  | child _ hn hm ih => exact ih.child hn hm

theorem Root.Inside.container {root : Root} {f : File} {s c : Scope} (h : root.Inside f s)
    (hc : c ∈ s.outwards.filter Scope.isContainer) : root.Inside f c := by
  obtain ⟨hout, hcont⟩ := List.mem_filter.1 hc
  clear hc
  induction h with
  | file =>
    rcases List.mem_cons.1 hout with rfl | hout
    · exact .file
    · obtain rfl := List.mem_singleton.1 hout
      cases hcont
  | child hs hn hm ih =>
    rcases List.mem_cons.1 hout with rfl | hout
    · exact .child hs hn hm
    · exact ih hout

/-- The territory of all scopes of a library and of those it depends on, for names with any meaning. -/
def Root.territory (root : Root) (f : File) : Territory where
  scope := root.Enters f
  stands s d := root.Enters f s ∧ d ∈ s.members
  found s d := s.Holds d
  name _ _ := True
  ty _ _ := False
  plain := True
  container hs hc h := hs.container hc h
  root hs hr := by
    obtain ⟨lib, hlib, rfl⟩ := (Scope.dependencyRoot?_eq (t := .ofRoot root) hs.deps_eq).1 hr
    exact .library hlib
  file hs hs' := by
    obtain ⟨lib, hlib, rfl⟩ := (Scope.dependencyScope?_eq (t := .ofRoot root) hs.deps_eq).1 hs'
    exact .enter (.library hlib) ⟨_, lib, hlib, rfl, .head _⟩
  enter hs hd := hs.held hd
  member hs hd := ⟨hs, hd⟩
  held _ hd := hd
  exportee _ hd := .inr (.inl ⟨_, hd.2⟩)
  lookedUp _ _ _ := trivial
  followed h := absurd trivial h
  target h := absurd trivial h
  part h := absurd trivial h
  tyName h := absurd trivial h

/-! ## Numbers tell the scopes apart -/

/-- The file of the library got its numbers after those of the libraries that it depends on. -/
structure Root.Numbered (root : Root) (f : File) : Prop where
  libs : ∀ {x lib}, root.deps.find? x = some lib →
    Apart 1 root.deps.nextId [.file lib.file, .decl lib.module]
  file : ∃ hi, Apart root.deps.nextId hi [.file f]

theorem Dependencies.find?_name {deps : Dependencies} {x : Ident} {lib : Dependency}
    (h : deps.find? x = some lib) : lib.name = x := by
  have hx := List.find?_some h
  exact eq_of_beq hx

namespace Root.Numbered

variable {root : Root} {f : File} (hnum : root.Numbered f) {s s' : Scope} {n n' : Node}
include hnum

theorem current (h : root.Enters f s) (hn : s.current? = some n) : n.Numbered := by
  induction h generalizing n with
  | file =>
    obtain rfl : Node.file f = n := Option.some.inj hn
    obtain ⟨hi, hf⟩ := hnum.file
    exact hf.numbered _ (.head _)
  | library h => cases hn
  | @enter s m hs hm ih =>
    obtain rfl : m = n := Option.some.inj hn
    unfold Root.Next at hm
    split at hm
    · rename_i n₀ hn₀
      obtain ⟨-, -, hin⟩ := ih hn₀
      exact hin m hm
    · obtain ⟨x, lib, hlib, -, hm⟩ := hm
      exact (hnum.libs hlib).numbered m hm

omit hnum in
theorem next_library (hs : s.current? = none) (hn : root.Next s n) :
    ∃ lib, root.deps.find? s.root.lib = some lib ∧ n ∈ [.file lib.file, .decl lib.module] := by
  rw [Root.Next, hs] at hn
  obtain ⟨x, lib, hlib, rfl, hn⟩ := hn
  refine ⟨lib, ?_, hn⟩
  obtain rfl := Dependencies.find?_name hlib
  exact hlib

theorem next_inj (h : root.Enters f s) (hn : root.Next s n) (hn' : root.Next s n')
    (hid : n.id = n'.id) : n = n' := by
  cases hs : s.current? with
  | some n₀ =>
    rw [Root.Next, hs] at hn hn'
    exact Node.eq_of_num (hnum.current h hs).distinct hn hn' hid
  | none =>
    obtain ⟨lib, hlib, hn⟩ := next_library hs hn
    obtain ⟨lib', hlib', hn'⟩ := next_library hs hn'
    cases hlib.symm.trans hlib'
    exact Node.eq_of_num (hnum.libs hlib).distinct hn hn' hid

theorem file_ne (hs : s.frames = []) (hn : root.Next s n) : (Node.file f).id ≠ n.id := by
  have hcur : s.current? = none := by rw [Scope.current?, hs]; rfl
  obtain ⟨lib, hlib, hn⟩ := next_library hcur hn
  obtain ⟨hi, hf⟩ := hnum.file
  have hfile := (hf.between _ (.head _)).resolve_left fun h => by cases h
  have hlt : n.num < root.deps.nextId := by
    rcases (hnum.libs hlib).between n hn with rfl | h
    · simp at hn
    · exact h.2
  intro hid
  have hnum : (Node.file f).num = n.num := hid
  omega

/-- **Scopes are told apart by their library and the numbers of the nodes entered.** -/
theorem key_inj (h : root.Enters f s) (h' : root.Enters f s') (hkey : s.key = s'.key) : s = s' := by
  induction h generalizing s' with
  | file =>
    cases h' with
    | file => rfl
    | library h' => cases (Prod.mk.inj hkey).2
    | enter hs' hn' =>
      simp only [Scope.key, Scope.enter, List.map_cons, Prod.mk.injEq, List.cons.injEq] at hkey
      exact absurd hkey.2.1 (hnum.file_ne (List.map_eq_nil_iff.1 hkey.2.2.symm) hn')
  | library h =>
    cases h' with
    | file => cases (Prod.mk.inj hkey).2
    | library h' =>
      have hroot := congrArg (fun x => { root with lib := x, pedantic := false }) (Prod.mk.inj hkey).1
      exact congrArg Scope.ofRoot hroot
    | enter hs' hn' => cases (Prod.mk.inj hkey).2
  | enter hs hn ih =>
    cases h' with
    | file =>
      simp only [Scope.key, Scope.enter, List.map_cons, Prod.mk.injEq, List.cons.injEq] at hkey
      exact absurd hkey.2.1.symm (hnum.file_ne (List.map_eq_nil_iff.1 hkey.2.2) hn)
    | library h' => cases (Prod.mk.inj hkey).2
    | enter hs' hn' =>
      simp only [Scope.key, Scope.enter, List.map_cons, Prod.mk.injEq, List.cons.injEq] at hkey
      obtain rfl := ih hs' (Prod.ext hkey.1 hkey.2.2)
      rw [hnum.next_inj hs hn hn' hkey.2.1]

/-- **The numbers tell all scopes and their declarations apart.** -/
theorem territory : (root.territory f).Numbered where
  scope hs hs' hkey := hnum.key_inj hs hs' hkey
  decl hd hd' hid := by
    have hnode := hnum.next_inj hd.1 (.of_mem hd.2 (Decl.mem_entries_self _))
      (.of_mem hd'.2 (Decl.mem_entries_self _)) hid
    exact Node.decl.inj hnode
  ty ht := ht.elim

end Root.Numbered

/-! ## Numbering one file after the other -/

theorem Apart.widen {lo lo' hi hi' : Nat} {ns : List Node} (h : Apart lo hi ns) (hpos : 0 < lo')
    (hlo : lo' ≤ lo) (hhi : hi ≤ hi') : Apart lo' hi' ns := by
  have hle := h.le
  refine ⟨hpos, by omega, h.numbered, fun n hn => (h.range n hn).imp_right fun hr => ?_,
    h.different⟩
  exact ⟨by omega, by omega⟩

namespace Dependencies

/-- All libraries got their numbers one after the other. -/
def InOrder (deps : Dependencies) : Prop :=
  0 < deps.nextId ∧ ∀ lib ∈ deps.libs, Apart 1 deps.nextId [.file lib.file, .decl lib.module]

theorem InOrder.add {deps : Dependencies} (h : deps.InOrder) (x : Ident) (f : File) :
    (deps.add x f).InOrder := by
  have hfile := f.apart_number h.1
  -- The library seen as a module lets the same nodes enter as its file.
  have hmod : (Node.decl (moduleOf (f.number deps.nextId).2 x (f.number deps.nextId).1)).Numbered := by
    obtain ⟨hdist, hpositive, hin⟩ := hfile.numbered _ (.head _)
    exact .mk hdist hpositive hin
  have hpos : 0 < (f.number deps.nextId).2 := Nat.lt_of_lt_of_le h.1 hfile.le
  have hlib := hfile.append (.single hpos rfl rfl hmod)
  refine ⟨Nat.succ_pos _, fun lib hlib' => ?_⟩
  rcases List.mem_append.1 hlib' with hold | hnew
  · exact (h.2 lib hold).widen (by decide) (Nat.le_refl _) (Nat.le_succ_of_le hfile.le)
  · obtain rfl := List.mem_singleton.1 hnew
    exact hlib.widen (by decide) h.1 (Nat.le_refl _)

theorem inOrder_ofFiles (files : List (Ident × File)) : (ofFiles files).InOrder := by
  suffices h : ∀ (files : List (Ident × File)) (deps : Dependencies), deps.InOrder →
      (files.foldl (fun deps e => deps.add e.1 e.2) deps).InOrder from
    h _ _ ⟨by decide, List.forall_mem_nil _⟩
  intro files
  induction files with
  | nil => exact fun _ h => h
  | cons e files ih => exact fun deps h => ih _ (h.add e.1 e.2)

end Dependencies

/-- **A library that is taken up anew is numbered.** -/
theorem Root.numbered_number {root : Root} (hdeps : root.deps.InOrder) (f : File) :
    root.Numbered (f.number root.deps.nextId).1 where
  libs h := hdeps.2 _ (List.mem_of_find?_eq_some h)
  file := ⟨_, f.apart_number hdeps.1⟩

/-- What all scopes of the library share. -/
def Library.root (lib : Library) (pedantic : Bool) : Root :=
  ⟨lib.name, pedantic, .ofFiles lib.deps⟩

/-- The file of the library, numbered after those that it depends on. -/
def Library.numbered (lib : Library) : File :=
  (lib.file.number (Dependencies.ofFiles lib.deps).nextId).1

theorem Library.numbered_root (lib : Library) (pedantic : Bool) :
    (lib.root pedantic).Numbered lib.numbered :=
  Root.numbered_number (Dependencies.inOrder_ofFiles lib.deps) lib.file

end Ambient
