import Ambient.Proofs.Reach
import Ambient.Proofs.Renumber
import Mathlib.Data.List.Flatten

/-!
# Numbered trees

Numbering a tree hands out one number after the other. So the nodes that a scope can enter from a node
(`Node.entries`) have different numbers, or are the same node; and this holds in all of the tree
(`Node.Numbered`). So have the members of a union and those of the unions in it, which the memory tells
apart in one scope. All occurrences of `this` are one node, the only one with the number zero.
-/

namespace Ambient

/-- The nodes that can be entered from a container because of a declaration in it: the declaration, and
the one that it exports where it stands. -/
def Decl.entries : Decl → List Node
  | .exports h (.inline d) => [.decl (.exports h (.inline d)), .decl d]
  | d => [.decl d]

theorem Decl.mem_entries_self (d : Decl) : .decl d ∈ d.entries := by
  unfold entries
  split <;> exact .head _

/-- The nodes that a scope can enter from a node. -/
def Node.entries (n : Node) : List Node :=
  match n.members? with
  | some ds => ds.flatMap Decl.entries
  | none => n.children

variable {ds : List Decl} {ns : List Node} {n : Node}

theorem Node.mem_entries (hds : n.members? = some ds) {d : Decl} (hd : d ∈ ds) {n' : Node}
    (hn' : n' ∈ d.entries) : n' ∈ n.entries := by
  rw [entries, hds]
  exact List.mem_flatMap.2 ⟨d, hd, hn'⟩

theorem Node.children_of_members? (h : n.members? = some ds) : n.children = ds.map .decl := by
  unfold members? at h
  split at h
  · cases h
    rfl
  · unfold Decl.members? at h
    split at h <;> cases h <;> rfl
  · cases h

theorem Node.children_subset_entries (n : Node) : n.children ⊆ n.entries := by
  intro n' hn'
  cases hds : n.members? with
  | none => rwa [entries, hds]
  | some ds =>
    rw [children_of_members? hds] at hn'
    obtain ⟨d, hd, rfl⟩ := List.mem_map.1 hn'
    exact mem_entries hds hd d.mem_entries_self

def Node.num (n : Node) : Nat := n.id

/-- The two nodes have different numbers, unless both are `this`. -/
def Node.Distinct (a b : Node) : Prop := a.num = b.num → a = .ty .this ∧ b = .ty .this

theorem Node.eq_of_num (h : ns.Pairwise Distinct) {a b : Node} (ha : a ∈ ns) (hb : b ∈ ns)
    (hnum : a.num = b.num) : a = b := by
  induction h with
  | nil => cases ha
  | cons hn _ ih =>
    rcases List.mem_cons.1 ha with rfl | ha' <;> rcases List.mem_cons.1 hb with rfl | hb'
    · rfl
    · obtain ⟨rfl, rfl⟩ := hn b hb' hnum
      rfl
    · obtain ⟨rfl, rfl⟩ := hn a ha' hnum.symm
      rfl
    · exact ih ha' hb'

/-- The node, and if it is a union then its members, nested unions opened. -/
def Node.branches : Node → List Node
  | .ty t => t.branches.map .ty
  | n => [n]

theorem Node.self_mem_branches (n : Node) : n ∈ n.branches := by
  cases n with
  | ty t => exact List.mem_map_of_mem t.self_mem_branches
  | _ => exact .head _

theorem Ty.branchesList_map (ts : List Ty) :
    (Ty.branchesList ts).map Node.ty = (ts.map Node.ty).flatMap Node.branches := by
  induction ts with
  | nil => rfl
  | cons t ts ih => rw [branchesList, List.map_append, ih, List.map_cons, List.flatMap_cons]; rfl

theorem Node.branches_sublist (n : Node) : n.branches.Sublist (n :: n.entries.flatMap branches) := by
  cases n with
  | ty t =>
    cases t with
    | union i ts =>
      rw [branches, Ty.branches, List.map_cons, Ty.branchesList_map]
      exact .refl _
    | _ => exact List.singleton_sublist.2 (.head _)
  | _ => exact List.singleton_sublist.2 (.head _)

theorem Node.sublist_branches (ns : List Node) : ns.Sublist (ns.flatMap branches) := by
  induction ns with
  | nil => exact .slnil
  | cons n ns ih => exact (List.singleton_sublist.2 n.self_mem_branches).append ih

/-- Wherever one gets by entering nodes, the nodes that can be entered have different numbers, also
the members of unions among them, and only that of `this` is zero. -/
inductive Node.Numbered : Node → Prop
  | mk {n : Node} (distinct : (n.entries.flatMap Node.branches).Pairwise Distinct)
    (positive : ∀ a ∈ n.entries, a = .ty .this ∨ 0 < a.num)
    (inside : ∀ a ∈ n.entries, a.Numbered) : n.Numbered

theorem Node.Numbered.distinct (h : n.Numbered) : n.entries.Pairwise Distinct := by
  obtain ⟨hdist, -⟩ := h
  exact hdist.sublist (sublist_branches _)

/-- The nodes got their numbers from `lo` on and before `hi`, and different ones. -/
structure Apart (lo hi : Nat) (ns : List Node) : Prop where
  pos : 0 < lo
  le : lo ≤ hi
  numbered : ∀ n ∈ ns, n.Numbered
  range : ∀ n ∈ ns.flatMap Node.branches, n = .ty .this ∨ (lo ≤ n.num ∧ n.num < hi)
  different : (ns.flatMap Node.branches).Pairwise Node.Distinct

namespace Apart

variable {lo mid hi : Nat}

theorem between (h : Apart lo hi ns) (n : Node) (hn : n ∈ ns) :
    n = .ty .this ∨ (lo ≤ n.num ∧ n.num < hi) :=
  h.range n ((Node.sublist_branches ns).subset hn)

theorem distinct (h : Apart lo hi ns) : ns.Pairwise Node.Distinct :=
  h.different.sublist (Node.sublist_branches ns)

theorem nil (h : 0 < lo) : Apart lo lo [] where
  pos := h
  le := Nat.le_refl _
  numbered _ h := absurd h List.not_mem_nil
  range _ h := absurd h List.not_mem_nil
  different := .nil

theorem append {ms : List Node} (h : Apart lo mid ns) (h' : Apart mid hi ms) :
    Apart lo hi (ns ++ ms) := by
  have hpos := h.pos
  have hle := h.le
  have hle' := h'.le
  have hthis : (Node.ty .this).num = 0 := rfl
  refine ⟨hpos, Nat.le_trans hle hle', fun n hn => ?_, fun n hn => ?_, ?_⟩
  · exact (List.mem_append.1 hn).elim (h.numbered n) (h'.numbered n)
  · rw [List.flatMap_append] at hn
    rcases List.mem_append.1 hn with hn | hn
    · exact (h.range n hn).imp_right fun hr => ⟨hr.1, by omega⟩
    · exact (h'.range n hn).imp_right fun hr => ⟨by omega, hr.2⟩
  · rw [List.flatMap_append]
    refine List.pairwise_append.2 ⟨h.different, h'.different, fun a ha b hb hab => ?_⟩
    rcases h.range a ha with rfl | hra <;> rcases h'.range b hb with rfl | hrb
    · exact ⟨rfl, rfl⟩
    · omega
    · omega
    · omega

theorem sublist {ms : List Node} (h : Apart lo hi ns) (hms : ms.Sublist ns) :
    Apart lo hi ms where
  pos := h.pos
  le := h.le
  numbered n hn := h.numbered n (hms.subset hn)
  range n hn := h.range n ((hms.flatMap Node.branches).subset hn)
  different := h.different.sublist (hms.flatMap Node.branches)

theorem single (hpos : 0 < lo) (hid : n.num = lo) (hbrs : n.branches = [n]) (hn : n.Numbered) :
    Apart lo (lo + 1) [n] := by
  refine ⟨hpos, Nat.le_succ _, fun m hm => ?_, fun m hm => ?_, ?_⟩
  · exact List.mem_singleton.1 hm ▸ hn
  · rw [List.flatMap_singleton, hbrs] at hm
    exact .inr (List.mem_singleton.1 hm ▸ ⟨by omega, by omega⟩)
  · rw [List.flatMap_singleton, hbrs]
    exact List.pairwise_singleton _ _

theorem around (h : Apart lo hi n.entries) : n.Numbered :=
  .mk h.different
    (fun a ha => (h.between a ha).imp_right fun hr => Nat.lt_of_lt_of_le h.pos hr.1) h.numbered

theorem node (hpos : 0 < lo) (hid : n.num = lo) (h : Apart (lo + 1) hi n.entries) : Apart lo hi [n] := by
  have hle := h.le
  have hthis : (Node.ty .this).num = 0 := rfl
  have hsub := n.branches_sublist
  rw [← List.flatMap_singleton Node.branches n] at hsub
  refine ⟨hpos, by omega, fun m hm => List.mem_singleton.1 hm ▸ h.around, fun m hm => ?_, ?_⟩
  · rcases List.mem_cons.1 (hsub.subset hm) with rfl | hm
    · exact .inr ⟨by omega, by omega⟩
    · exact (h.range m hm).imp_right fun hr => ⟨by omega, hr.2⟩
  · refine (List.pairwise_cons.2 ⟨fun m hm hnm => ?_, h.different⟩).sublist hsub
    rcases h.range m hm with rfl | hr <;> omega

theorem wrap {m : Node} (h : Apart lo hi [m]) (hm : m ≠ .ty .this) (hid : n.num = m.num)
    (hbrs : n.branches = [n]) (hents : n.entries = [m]) : Apart lo hi [n] := by
  refine ⟨h.pos, h.le, fun a ha => ?_, fun a ha => ?_, ?_⟩
  · exact List.mem_singleton.1 ha ▸ (show Apart lo hi n.entries from hents ▸ h).around
  · rw [List.flatMap_singleton, hbrs] at ha
    obtain rfl := List.mem_singleton.1 ha
    exact .inr (hid ▸ (h.between m (.head _)).resolve_left hm)
  · rw [List.flatMap_singleton, hbrs]
    exact List.pairwise_singleton _ _

theorem this (hpos : 0 < lo) : Apart lo lo [.ty .this] := by
  refine ⟨hpos, Nat.le_refl _, fun a ha => ?_, fun a ha => ?_, List.pairwise_singleton _ _⟩
  · exact List.mem_singleton.1 ha ▸ (nil hpos).around
  · exact .inl (List.mem_singleton.1 ha)

end Apart

/-- Numbering from any positive number on keeps the nodes in the result apart. -/
def Numbers {α : Type} (x : StateM NodeId α) (nodes : α → List Node) : Prop :=
  ∀ lo : Nat, 0 < lo → Apart lo (x.run lo).2 (nodes (x.run lo).1)

theorem Apart.next {lo mid : Nat} (h : Apart lo mid ns) {α : Type} {x : StateM NodeId α}
    {nodes : α → List Node} (hx : Numbers x nodes) :
    Apart lo (x.run mid).2 (ns ++ nodes (x.run mid).1) :=
  h.append (hx mid (Nat.lt_of_lt_of_le h.pos h.le))

/-! ## Numbering -/

/-- The nodes that can be entered because of a thing. -/
def Kind.entries : (k : Kind) → k.Of → List Node
  | .decl, d => d.entries
  | k, a => k.nodes a

theorem Kind.nodes_sublist_entries (k : Kind) (a : k.Of) : (k.nodes a).Sublist (k.entries a) := by
  cases k with
  | decl => exact List.singleton_sublist.2 (Decl.mem_entries_self a)
  | _ => exact .refl _

theorem Decl.numbersList (h : ∀ d ∈ ds, Numbers (d.renumber nextId) Decl.entries) :
    Numbers ((Form.each (.one .decl) ds).traverse (Kind.renumber nextId)) fun ds =>
      ds.flatMap Decl.entries := by
  induction ds with
  | nil => exact fun _ hlo => .nil hlo
  | cons d ds ih =>
    exact fun lo hlo => (h d (.head _) lo hlo).next (ih fun d hd => h d (.tail _ hd))

theorem Kind.numbers_inner {k : Kind} {a : k.Of}
    (h : (k.form a).All fun k a => Numbers (k.renumber nextId a) k.entries) :
    Numbers ((k.form a).traverse (Kind.renumber nextId)) k.inner := by
  intro lo hlo
  obtain ⟨ns, hfill, hns⟩ := Form.numbered (R := fun lo hi _ ns => 0 < lo → Apart lo hi ns) (fun _ => .nil)
    (fun h h' hlo => (h hlo).append (h' (Nat.lt_of_lt_of_le hlo (h hlo).le)))
    (h.mono fun k a h n => ⟨(k.relabelled a n).1, fun hn => (h n hn).sublist (k.nodes_sublist_entries _)⟩) lo
  exact Kind.inner_of_filled hfill ▸ hns hlo

/-- **Numbering keeps nodes apart**: a node has the first number, and its parts the following ones. -/
theorem Kind.numbers (k : Kind) (a : k.Of) : Numbers (k.renumber nextId a) k.entries := by
  induction k, a using Kind.induct with
  | step k a ih =>
  intro lo hlo
  have hlo' : 0 < lo + 1 := Nat.succ_pos _
  have hinner := Kind.numbers_inner (Kind.all_withId ih lo)
  rw [k.renumber_eq nextId a]
  cases k with
  | file => exact .node hlo rfl (Decl.numbersList (Form.all_each.1 ih) _ hlo')
  | decl =>
    cases a with
    | space | module | augmentation | global =>
      exact .node hlo rfl (Decl.numbersList (Form.all_each.1 ih) _ hlo')
    | exports h x =>
      cases x with
      | inline d =>
        have hd : Apart (lo + 1) _ [.decl ((d.renumber nextId).run (lo + 1)).1] :=
          (ih _ hlo').sublist (List.singleton_sublist.2 (Decl.mem_entries_self _))
        exact (Apart.single (n := .decl (.exports { h with info := { h.info with id := lo } }
          (.inline _))) hlo rfl rfl hd.around).append hd
      | names | star => exact .node hlo rfl (.nil hlo')
    | _ => exact .node hlo rfl (hinner _ hlo')
  | member =>
    rcases a with _ | _ | _ | _ | ⟨_, _, _, _ | _, _⟩ | _ <;> exact .node hlo rfl (hinner _ hlo')
  | ty =>
    cases a with
    | function | infer => exact (ih lo hlo).wrap (fun h => by cases h) rfl rfl rfl
    | this => exact .this hlo
    | _ => exact .node hlo rfl (hinner _ hlo')
  | expr => exact hinner lo hlo
  | _ => exact .node hlo rfl (hinner _ hlo')

/-- **Numbering a file keeps its nodes apart.** -/
theorem File.apart_number (f : File) {lo : NodeId} (hlo : 0 < lo) :
    Apart lo (f.number lo).2 [.file (f.number lo).1] :=
  Kind.numbers .file f lo hlo

end Ambient
