import Ambient.Pass.Hoist
import Ambient.Proofs.Rewritten

/-!
# Members next to exported variables

What the functions that hoist members do, said once for every way of looking at computations: the members
of a targeted variable become functions and variables in the block right after it, if their names are free.

* `Member.HoistedAs`: the function or variable that a member becomes.
* `Decl.Hoists`: the block in the place of a declaration.
* `hoistAll_inBlocks`: the declarations of a container, block by block.
-/

namespace Ambient

/-! ## Blocks -/

/-- The function or variable that a member of the type of `v` becomes in a container at `p`, and its name. -/
inductive Member.HoistedAs (v : VarDecl) (p : CodePath) : Member → Ident → Decl → Prop
  | call (c : CallMember) : HoistedAs v p (.call c) Ident.apply
      (.function ⟨{ comments := c.info.comments }, true, Ident.apply, c.sig, v.jsLocation.add Ident.apply,
        p.add Ident.apply⟩)
  | method (m : Method) (hkind : m.kind = .normal) (hstatic : m.isStatic = false)
    (hname : m.name ≠ Ident.constructor) : HoistedAs v p (.function m) m.name
      (.function ⟨{ comments := m.info.comments }, true, m.name, m.sig, v.jsLocation.add m.name, p.add m.name⟩)
  | property (q : Property) (hstatic : q.isStatic = false) : HoistedAs v p (.property q) q.name
      (.var ⟨{ comments := q.info.comments }, true, q.isReadonly, q.name, q.tpe, none,
        v.jsLocation.add q.name, p.add q.name⟩)

/-- What the members become, one after the other: those that get a free name are declared. -/
inductive Member.Hoisted (v : VarDecl) (p : CodePath) (free : Ident → Prop) : List Member → List Decl → Prop
  | nil : Hoisted v p free [] []
  | declared {m : Member} {ms : List Member} {x : Ident} {d : Decl} {ds : List Decl}
    (hm : m.HoistedAs v p x d) (hx : free x) (hms : Hoisted v p free ms ds) :
    Hoisted v p free (m :: ms) (d :: ds)
  | left {m : Member} {ms : List Member} {ds : List Decl} (hm : ∀ x d, m.HoistedAs v p x d → ¬ free x)
    (hms : Hoisted v p free ms ds) : Hoisted v p free (m :: ms) ds

/-- The block in the place of a declaration of a container at `p`: a targeted variable is followed by what its
members become, where `has` tells which they may be. -/
inductive Decl.Hoists (has : VarDecl → List Member → Prop) (free : Ident → Prop) (p : CodePath)
    (targets : List Ident) : Decl → List Decl → Prop
  | target {v : VarDecl} {ms : List Member} {ds : List Decl} (hv : v.name ∈ targets) (hms : has v ms)
    (h : Member.Hoisted v p free ms ds) : Hoists has free p targets (.var v) (.var v :: ds)
  | other {d : Decl} (h : ∀ v, d = .var v → v.name ∉ targets) : Hoists has free p targets d [d]

section
variable {v : VarDecl} {p : CodePath} {m : Member} {ms : List Member} {x : Ident} {d : Decl} {ds : List Decl}
  {free : Ident → Prop}

theorem Member.HoistedAs.name? (h : m.HoistedAs v p x d) : d.name? = some x := by
  cases h <;> rfl

theorem Member.HoistedAs.unique (h : m.HoistedAs v p x d) {y : Ident} {e : Decl} (h' : m.HoistedAs v p y e) :
    x = y := by
  cases h <;> cases h' <;> rfl

theorem Member.Hoisted.exists_of_mem (h : Hoisted v p free ms ds) (hd : d ∈ ds) :
    ∃ m ∈ ms, ∃ x, m.HoistedAs v p x d ∧ free x := by
  induction h with
  | nil => cases hd
  | declared hm hx _ ih =>
    rcases List.mem_cons.1 hd with rfl | hd
    · exact ⟨_, .head _, _, hm, hx⟩
    · obtain ⟨m', hm', hrest⟩ := ih hd
      exact ⟨m', .tail _ hm', hrest⟩
  | left _ _ ih =>
    obtain ⟨m', hm', hrest⟩ := ih hd
    exact ⟨m', .tail _ hm', hrest⟩

theorem Member.Hoisted.congr {free' : Ident → Prop}
    (hfree : ∀ m ∈ ms, ∀ x d, m.HoistedAs v p x d → (free x ↔ free' x)) (h : Hoisted v p free ms ds) :
    Hoisted v p free' ms ds := by
  induction h with
  | nil => exact .nil
  | declared hm hx _ ih =>
    exact .declared hm ((hfree _ (.head _) _ _ hm).1 hx) (ih fun m hm => hfree m (.tail _ hm))
  | left hm _ ih =>
    exact .left (fun x d hxd hx => hm x d hxd ((hfree _ (.head _) _ _ hxd).2 hx))
      (ih fun m hm => hfree m (.tail _ hm))

end

/-! ## Members -/

theorem relocated_eq {p q : CodePath} {x : Ident} (h : relocated p x = .ok q) : q = p.add x := by
  unfold relocated CodePath.relocate at h
  split at h
  · cases h
    rfl
  · cases h

theorem relocated_of_isSet {p : CodePath} (h : p.isSet = true) (x : Ident) :
    relocated p x = .ok (p.add x) := by
  rw [relocated, CodePath.relocate, if_pos h]
  rfl

section
variable {v : VarDecl} {p : CodePath}

theorem hoistMember_cases {m : Member} {r : Option Decl} (h : hoistMember v p m = .ok r) :
    (∃ x d, m.HoistedAs v p x d ∧ r = some d) ∨ (∀ x d, ¬ m.HoistedAs v p x d) ∧ r = none := by
  have hplace : ∀ {x : Ident} {k : CodePath → Decl}, m.HoistedAs v p x (k (p.add x)) →
      (relocated p x >>= fun q => pure (some (k q))) = .ok r → ∃ x d, m.HoistedAs v p x d ∧ r = some d := by
    intro x k hk hr
    obtain ⟨q, hq, hr⟩ := bind_eq_ok.1 hr
    cases hr
    obtain rfl := relocated_eq hq
    exact ⟨x, _, hk, rfl⟩
  cases m with
  | call c => exact .inl (hplace (.call c) h)
  | function m =>
    rw [hoistMember] at h
    split at h
    · rename_i hm
      cases h
      refine .inr ⟨fun x d hd => ?_, rfl⟩
      cases hd with
      | method _ hkind hstat hname => simp [hkind, hstat, hname] at hm
    · rename_i hm
      simp only [ne_eq, not_or, Decidable.not_not, Bool.not_eq_true] at hm
      exact .inl (hplace (.method m hm.1 hm.2.1 hm.2.2) h)
  | property q =>
    rw [hoistMember] at h
    split at h
    · rename_i hq
      cases h
      refine .inr ⟨fun x d hd => ?_, rfl⟩
      cases hd with
      | property _ hstat => simp [hstat] at hq
    · rename_i hq
      exact .inl (hplace (.property q (by simpa using hq)) h)
  | _ =>
    cases h
    exact .inr ⟨fun x d hd => (by cases hd), rfl⟩

theorem hoistMembers_hoisted {ms : List Member} {ds : List Decl} (h : hoistMembers v p ms = .ok ds)
    (existing : List Ident) : Member.Hoisted v p (· ∉ existing) ms
      (ds.filter fun d => d.name?.any fun x => !existing.contains x) := by
  induction ms generalizing ds with
  | nil =>
    cases h
    exact .nil
  | cons m ms ih =>
    rw [hoistMembers] at h
    cases hm : hoistMember v p m with
    | error e => rw [hm] at h; cases h
    | ok r =>
      cases hms : hoistMembers v p ms with
      | error e => rw [hm, hms] at h; cases h
      | ok ds' =>
        rw [hm, hms] at h
        cases h
        rw [List.filter_append]
        obtain ⟨x, d, hd, rfl⟩ | ⟨hno, rfl⟩ := hoistMember_cases hm
        · by_cases hx : x ∈ existing
          · have hm : ∀ y e, m.HoistedAs v p y e → ¬ y ∉ existing := fun y e he => by
              rw [he.unique hd]
              exact not_not_intro hx
            simpa [hd.name?, hx] using Member.Hoisted.left hm (ih hms)
          · simpa [hd.name?, hx] using Member.Hoisted.declared hd hx (ih hms)
        · exact .left (fun x d hd => absurd hd (hno x d)) (ih hms)

theorem hoistMembers_isOk (hp : p.isSet = true) (ms : List Member) : ∃ ds, hoistMembers v p ms = .ok ds := by
  have hmemb : ∀ m, ∃ d, hoistMember v p m = .ok d := by
    intro m
    cases m <;> simp only [hoistMember, relocated_of_isSet hp]
    all_goals first | exact ⟨_, rfl⟩ | split <;> exact ⟨_, rfl⟩
  induction ms with
  | nil => exact ⟨[], rfl⟩
  | cons m ms ih =>
    obtain ⟨d, hd⟩ := hmemb m
    obtain ⟨ds, hds⟩ := ih
    rw [hoistMembers, hd, hds]
    exact ⟨_, rfl⟩

end

/-! ## Declarations -/

section
variable {L : Logic Resolve} {s : Scope} {P : VarDecl → List Member → Prop}
  (hP : ∀ {w v}, L.ends w (membersOfVar s v) fun ms _ => P v ms)
  (hok : ∀ {w v ms}, L.ends w (liftM (hoistMembers v s.codePath ms)) fun ds _ =>
    hoistMembers v s.codePath ms = .ok ds)
include hP hok

theorem hoistedBy_hoists (targets existing : List Ident) (d : Decl) {w : L.World} :
    L.ends w (hoistedBy s targets existing d) fun ds _ =>
      d.Hoists P (· ∉ existing) s.codePath targets (d :: ds) := by
  unfold hoistedBy
  split
  · split
    · rename_i hv
      refine L.bind hP fun ms _ _ hms => L.bind hok fun ds _ _ hds => L.pure ?_
      exact .target (by simpa using hv) hms (hoistMembers_hoisted hds existing)
    · rename_i v hv
      refine L.pure (.other fun v' hv' => ?_)
      cases hv'
      simpa using hv
  · rename_i hd
    exact L.pure (.other fun v hv => absurd hv (hd v))

theorem hoistAll_inBlocks (targets existing : List Ident) (ds : List Decl) {w : L.World} :
    L.ends w (hoistAll s targets existing ds) fun e _ =>
      InBlocks (Decl.Hoists P (· ∉ existing) s.codePath targets) ds e.value ∧
        (e.changed = false → e.value = ds) := by
  induction ds generalizing w with
  | nil => exact L.pure ⟨.nil, fun _ => rfl⟩
  | cons d ds ih =>
    refine L.bind (hoistedBy_hoists hP hok targets existing d) fun hoisted _ _ hd => ?_
    refine L.bind ih fun e _ _ he => L.pure ⟨.cons hd he.1, fun hchg => ?_⟩
    simp only [Bool.or_eq_false_iff, Bool.not_eq_false', List.isEmpty_iff] at hchg
    rw [hchg.1, he.2 hchg.2]
    rfl

end

end Ambient
