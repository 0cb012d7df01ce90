import Ambient.Proofs.Callables
import Ambient.Proofs.Keys
import Ambient.Proofs.Stable

/-!
# Mapped types that are left

A run that expands mapped types leaves none whose keys it knows. But it looks keys up in the file that it was
given, and it does not look into the types that it puts in, so a second run can find more to expand.

* `Root.Expanded`: no keys of a mapped type are known. A run gives back the very file exactly then
  (`expandTypeMappings_eq_keep_iff`).
* `Root.ExpandsPlainly`: all keys are known, and mapped types hold neither mapped types nor indexed accesses.
  Then a run leaves no mapped type (`Node.Rewritten.ruleless`).
-/

namespace Ambient

/-- No keys of a mapped type without an `as` clause are known where it stands. -/
def Root.Expanded (root : Root) (f : File) : Prop :=
  ∀ {s i m}, root.At f s (.ty (.object i [.mapped m])) → m.asName = none → s.keysOn [] m.source = none

/-! ## What a run leaves -/

variable {ts : List Ty} {m : MappedMember} {i : NodeInfo}

section
variable {keys : Ty → Option (List Ident)} {t : Ty} {r : Option Ty}

theorem Ty.Expands.rule_left (h : t.Expands keys r) (heq : r.getD t = .object i [.mapped m]) : r = none := by
  cases h with
  | mapped _ _ hms =>
    cases heq
    cases hms with
    | cons hm => obtain ⟨u, hu, -⟩ := hm; cases hu
  | other => rfl

end

section
variable {s : Scope} {t : Ty}

theorem Node.Rewritten.keys_unknown
    (h : (Node.ty t).Rewritten expanding s (.ty (.object i [.mapped m]))) (has : m.asName = none) :
    (s.enter (.ty t)).keysOn [] m.source = none := by
  cases h with
  | container hds => cases hds
  | rebuilt _ _ _ _ hmems hleft =>
    cases hleft with
    | ty h =>
      obtain ⟨r, hr, heq⟩ := h
      obtain rfl := hr.rule_left heq.symm
      cases hr with
      | other hkeys => exact hkeys i m heq.symm has
    | other hty => exact absurd rfl (hty _)

theorem Node.Alike.of_rule {W : Rewriting Scope} {m' : MappedMember}
    (halike : (Node.ty t).Alike (.ty (.object i [.mapped m'])))
    (hlen : (Node.ty (.object i [.mapped m'])).children.length = (Node.ty t).children.length)
    (h : ∀ (k : Nat) (x x' : Node), (Node.ty t).children[k]? = some x →
      (Node.ty (.object i [.mapped m'])).children[k]? = some x' → x.Rewritten W s x')
    (has : m'.asName = none) :
    ∃ m c, t = .object i [.mapped m] ∧ m.asName = none ∧ (Node.ty m.source).Rewritten W c (.ty m'.source) ∧
      (Node.ty m.target).Rewritten W c (.ty m'.target) := by
  cases halike with
  | leaf hleaf => cases hleaf
  | object _ ms =>
    obtain ⟨x, rfl⟩ : ∃ x, ms = [x] := List.length_eq_one_iff.1 (by simpa [children, childrenOfTy] using hlen.symm)
    obtain ⟨hmemb, -, hparts⟩ := (h 0 _ _ rfl rfl).of_plain rfl rfl fun _ h => by cases h
    cases hmemb with
    | leaf hleaf => cases hleaf
    | mapped m source as target ha =>
      cases has
      have has : m.asName = none := by cases hm : m.asName <;> simp_all
      refine ⟨m, _, rfl, has, hparts 0 _ _ rfl rfl, hparts 1 _ _ ?_ rfl⟩
      simp [children, childrenOfMember, has]

end

/-! ## Runs that change nothing -/

/-- If a node becomes itself, then so do its parts, and it is no mapped type over known keys. -/
theorem Node.Rewritten.of_self {s : Scope} {n : Node} (h : n.Rewritten expanding s n) :
    (∀ m ∈ n.children, m.Rewritten expanding (s.enter n) m) ∧
      ∀ t, n = .ty t → t.Expands ((s.enter n).keysOn []) none := by
  have hparts : ∀ {ns' : List Node}, ns' = n.children → (∀ (i : Nat) (m m' : Node), n.children[i]? = some m →
      ns'[i]? = some m' → m.Rewritten expanding (s.enter n) m') →
      ∀ m ∈ n.children, m.Rewritten expanding (s.enter n) m := by
    rintro _ rfl hm m hmem
    obtain ⟨i, hi⟩ := List.mem_iff_getElem?.1 hmem
    exact hm i m m hi hi
  cases h with
  | @container _ _ _ ds ds₁ ds₂ hds _ h hnew hn' =>
    cases hnew
    cases hds.symm.trans (Node.members?_of_withMembers? hn')
    refine ⟨fun m hm => ?_, fun t ht => by subst ht; cases hds⟩
    rw [Node.children_of_members? hds] at hm
    obtain ⟨d, hd, rfl⟩ := List.mem_map.1 hm
    obtain ⟨i, hi⟩ := List.mem_iff_getElem?.1 hd
    exact h i d d hi hi
  | @rebuilt _ _ n₁ n₂ _ _ halike hlen h hmems hleft =>
    obtain rfl := hmems.eq
    cases hleft with
    | other hty => exact ⟨hparts rfl h, fun t ht => absurd ht (hty t)⟩
    | @ty t t' ht =>
      obtain ⟨r, hr, heq⟩ := ht
      cases hr with
      | other hkeys =>
        cases heq
        exact ⟨hparts rfl h, fun u hu => by cases hu; exact .other hkeys⟩
      | mapped has hks hms =>
        cases heq
        -- a property would have become a mapped rule
        obtain ⟨m₀, _, ht, -⟩ := halike.of_rule hlen h has
        obtain rfl := (Ty.object.inj ht).2
        cases hms with
        | cons hm => obtain ⟨u, hu, -⟩ := hm; cases hu

section
variable {root : Root} {f : File}

theorem Root.At.becomes_itself (h : (Node.file f).Rewritten expanding (.ofRoot root) (.file f)) {s : Scope}
    {n : Node} (hn : root.At f s n) : ∃ s₀, s = s₀.enter n ∧ n.Rewritten expanding s₀ n := by
  obtain ⟨hs, hn⟩ := hn
  induction hs generalizing n with
  | file =>
    cases hn
    exact ⟨_, rfl, h⟩
  | child _ hn₀ hm ih =>
    cases hn
    obtain ⟨s₀, rfl, hself⟩ := ih hn₀
    exact ⟨_, rfl, hself.of_self.1 _ hm⟩

theorem Root.Expanded.rests (h : root.Expanded f) :
    memoryless.ends () (expandTypeMappings (.ofRoot root) f) fun e _ => e = .keep f := by
  have hrests : mappedHooks.Rests memoryless fun s n => root.Inside f (s.enter n) :=
    { root.idle_rests f memoryless with
      idle := {}
      leaveTy := fun hs => memoryless.imp (expandMapped_expands _ _) fun r _ hr => by
        cases hr with
        | mapped has hks => cases (h ⟨hs, rfl⟩ has).symm.trans hks
        | other => rfl }
  exact hrests.walkFile f .file ()

theorem Resolve.Gives.unique {α : Type} {x : Resolve α} {a b : α} (ha : x.Gives (some a)) (hb : x.Gives (some b)) :
    a = b := by
  obtain ⟨_, -, hrun⟩ := ha { memo := none } rfl
  obtain ⟨_, -, hrun'⟩ := hb { memo := none } rfl
  cases hrun.symm.trans hrun'
  rfl

/-- **A run gives back the very file exactly if no mapped type has known keys.** -/
theorem expandTypeMappings_eq_keep_iff {e : Edited File} (h : (expandTypeMappings (.ofRoot root) f).Gives (some e)) :
    e = .keep f ↔ root.Expanded f := by
  constructor
  · rintro rfl s i m hs has
    obtain ⟨e, he, hrew⟩ := expandTypeMappings_rewritten (.ofRoot root) f
    cases he.unique h
    obtain ⟨s₀, rfl, hself⟩ := hs.becomes_itself hrew
    cases hself.of_self.2 _ rfl with
    | other hkeys => exact hkeys i m rfl has
  · intro hexpd
    obtain ⟨e', he', rfl⟩ := hexpd.rests
    exact h.unique he'

end

/-! ## Plain mapped types -/

/-- The node is neither a mapped rule nor an indexed access. -/
def Node.isSettled : Node → Bool
  | .ty (.lookup _ _ _) | .member (.mapped _) => false
  | _ => true

/-- There is neither a mapped rule nor an indexed access in the node. -/
abbrev Node.Settled (n : Node) : Prop := n.Throughout fun n => n.isSettled = true

/-- The node is no mapped type without an `as` clause. -/
def Node.Ruleless (n : Node) : Prop := ∀ i m, n = .ty (.object i [.mapped m]) → m.asName ≠ none

/-- The keys of every mapped type without an `as` clause are known where it stands, and there is neither a
mapped rule nor an indexed access in it. -/
def Root.ExpandsPlainly (root : Root) (f : File) : Prop :=
  ∀ {s i m}, root.At f s (.ty (.object i [.mapped m])) → m.asName = none →
    (s.keysOn [] m.source).isSome ∧ (Node.ty m.source).Settled ∧ (Node.ty m.target).Settled

section
variable {C : Type} {within : C → Node → C} {Q : C → Ty → Ty → Prop} {c : C} {n n' : Node} {P : Node → Prop}

theorem Node.Rewritten.eq_of_throughout (hQ : ∀ {c t t'}, Q c t t' → (Node.ty t).Throughout P → t' = t)
    (h : n.Rewritten (.ofTypes within Q) c n') (hn : n.Throughout P) : n' = n := by
  induction h with
  | @container c n n' ds ds₁ ds₂ hds hlen _ hnew hn' ih =>
    cases hnew
    have hsame : ds₁ = ds := List.ext_getElem hlen fun i hi hi' => by
      have hmem : Node.decl ds[i] ∈ n.children := by
        rw [Node.children_of_members? hds]
        exact List.mem_map_of_mem (List.getElem_mem hi')
      exact Node.decl.inj (ih i _ _ (List.getElem?_eq_getElem hi') (List.getElem?_eq_getElem hi) (hn.inside hmem))
    exact Node.withMembers?_eq hds (hsame ▸ hn')
  | @rebuilt c n n₁ n₂ n' _ halike hlen _ hmems hleft ih =>
    obtain rfl := hmems.eq
    obtain rfl := halike.eq (List.ext_getElem hlen fun i hi hi' =>
      ih i _ _ (List.getElem?_eq_getElem hi') (List.getElem?_eq_getElem hi) (hn.inside (List.getElem_mem hi')))
    cases hleft with
    | ty h => exact congrArg Node.ty (hQ h hn)
    | other => rfl

theorem Node.Rewritten.throughout (halike : ∀ {n n'}, n.Alike n' → P n → P n')
    (hmems : ∀ {n n' ds}, n.withMembers? ds = some n' → P n → P n')
    (hQ : ∀ {c t t'}, Q c t t' → (Node.ty t).Throughout P → (Node.ty t').Throughout P)
    (h : n.Rewritten (.ofTypes within Q) c n') (hn : n.Throughout P) : n'.Throughout P := by
  induction h with
  | @container c n n' ds ds₁ ds₂ hds hlen _ hnew hn' ih =>
    cases hnew
    refine .mk (hmems hn' hn.here) fun m hm => ?_
    rw [Node.children_of_members? (Node.members?_of_withMembers? hn')] at hm
    obtain ⟨d, hd, rfl⟩ := List.mem_map.1 hm
    refine forall_mem_of_getElem? (Q := fun d => (Node.decl d).Throughout P) hlen (fun i d d' hd hd' => ?_) d hd
    refine ih i d d' hd hd' (hn.inside ?_)
    rw [Node.children_of_members? hds]
    exact List.mem_map_of_mem (List.mem_of_getElem? hd)
  | @rebuilt c n n₁ n₂ n' _ hn₁ hlen _ hrefit hleft ih =>
    obtain rfl := hrefit.eq
    have hthr : n₂.Throughout P := .mk (halike hn₁ hn.here)
      (forall_mem_of_getElem? hlen fun i m m' hm hm' => ih i m m' hm hm' (hn.inside (List.mem_of_getElem? hm)))
    cases hleft with
    | ty h => exact hQ h hthr
    | other => exact hthr

end

/-! ## Settled types -/

theorem Node.Alike.isSettled {n n' : Node} (h : n.Alike n') : n'.isSettled = n.isSettled := by
  cases h <;> rfl

theorem Node.isSettled_of_withMembers? {n n' : Node} {ds : List Decl} (h : n.withMembers? ds = some n') :
    n'.isSettled = n.isSettled := by
  cases n with
  | file => cases h; rfl
  | decl d => cases d <;> cases h <;> rfl
  | _ => cases h

theorem Substitution.mem_of_replacement? {sub : Substitution} {t u : Ty} (h : sub.replacement? t = some u) :
    ∃ k, (k, u) ∈ sub := by
  unfold replacement? at h
  split at h
  · cases h
  · rename_i hfind
    cases h
    exact ⟨_, List.mem_of_find?_eq_some hfind⟩
  · cases h

section
variable {t : Ty}

theorem Node.Settled.substituted (ht : (Node.ty t).Settled) (x key : Ident) :
    (Node.ty (Substitution.inTy [(.ref {} [x] [], .literal 0 (.str key))] t).value).Settled := by
  have hacts : substituteHooks.Acts computing (fun sub _ => ∀ p ∈ sub, p.2 = Ty.literal 0 (.str key))
      (.ofTypes Substitution.under fun _ t t' => t' = t ∨ t' = .literal 0 (.str key)) :=
    leaveTy_acts computing (fun hsub _ p hp => hsub p (List.mem_filter.1 hp).1) fun {_ sub t} t' hsub => ?_
  · have hrew := walkTy_builds (c := [(.ref {} [x] [], .literal 0 (.str key))]) hacts.builds t (by simp) ()
    refine hrew.throughout (fun h hs => h.isSettled.trans hs)
      (fun h hs => (Node.isSettled_of_withMembers? h).trans hs) ?_ ht
    rintro c t t' (rfl | rfl) ht
    · exact ht
    · exact .mk rfl fun _ h => by cases h
  · change ((sub.under (.ty t)).replacement? t').getD t' = t' ∨ ((sub.under (.ty t)).replacement? t').getD t' = _
    cases hr : (sub.under (.ty t)).replacement? t' with
    | none => exact .inl rfl
    | some u =>
      obtain ⟨k, hk⟩ := Substitution.mem_of_replacement? hr
      exact .inr (hsub _ (List.mem_filter.1 hk).1)

theorem Unnested.settled {ls : List Ty} (h : Unnested Ty.unionParts? ts ls)
    (hts : ∀ t ∈ ts, (Node.ty t).Settled) : ∀ l ∈ ls, (Node.ty l).Settled := by
  induction h with
  | nil => exact hts
  | leaf _ _ ih =>
    obtain ⟨ht, hts⟩ := List.forall_mem_cons.1 hts
    exact List.forall_mem_cons.2 ⟨ht, ih hts⟩
  | @opened t _ _ _ _ hparts _ _ ihus ihts =>
    obtain ⟨ht, hrest⟩ := List.forall_mem_cons.1 hts
    cases t with
    | union i us =>
      cases hparts
      exact List.forall_mem_append.2 ⟨ihus fun u hu => ht.inside (List.mem_map_of_mem hu), ihts hrest⟩
    | _ => cases hparts

theorem settled_simplifyUnion (h : ∀ t ∈ ts, (Node.ty t).Settled) :
    (Node.ty (simplifyUnion ts)).Settled := by
  have hlvs : ∀ l ∈ distinct (Ty.unionLeavesList ts), (Node.ty l).Settled := fun l hl =>
    (unnested_unionLeavesList.2 rfl).settled h l ((distinct_sublist _).subset hl)
  unfold simplifyUnion
  generalize distinct (Ty.unionLeavesList ts) = ls at hlvs
  unfold Ty.joinDistinct
  split
  · exact .mk rfl fun _ h => by cases h
  · exact hlvs _ (.head _)
  · refine .mk rfl fun m hm => ?_
    obtain ⟨l, hl, rfl⟩ := List.mem_map.1 hm
    exact hlvs l hl

theorem Node.Settled.apply (ht : (Node.ty t).Settled) (o : OptionalModifier) : (Node.ty (o.apply t)).Settled := by
  cases o with
  | noop => exact ht
  | optionalize =>
    refine settled_simplifyUnion (List.forall_mem_cons.2 ⟨ht, List.forall_mem_cons.2 ⟨?_, fun _ h => by cases h⟩⟩)
    exact .mk rfl fun _ h => by cases h
  | deoptionalize =>
    change (Node.ty ((extractOptional? t).getD t)).Settled
    unfold extractOptional?
    split
    · split
      · exact settled_simplifyUnion fun u hu => ht.inside (List.mem_map_of_mem (List.mem_filter.1 hu).1)
      · exact ht
    · split <;> exact ht

theorem MappedMember.MakesFor.settled (hm : (Node.ty m.target).Settled) {key : Ident} {x : Member}
    (h : m.MakesFor key x) : (Node.member x).Settled := by
  obtain ⟨u, rfl, hu⟩ := h
  have hsub := hm.substituted m.key key
  have hacc : ∀ {t t' : Ty}, (t' = t ∨ ∃ i u k, t = .lookup i u k) → (Node.ty t).Settled → t' = t := by
    rintro t t' (rfl | ⟨i, u, k, rfl⟩) ht
    · rfl
    · cases ht.here
  have hsame := hu.eq_of_throughout hacc hsub
  refine .mk rfl fun n hn => ?_
  obtain rfl : n = .ty (m.optionalize.apply u) := List.mem_singleton.1 hn
  rw [Node.ty.inj hsame]
  exact hsub.apply m.optionalize

theorem Node.Settled.ruleless {n : Node} (h : n.Settled) : n.Throughout Node.Ruleless := by
  induction h with
  | mk _ hin ih =>
    refine .mk (fun i m hn => ?_) ih
    subst hn
    cases (hin _ (.head _)).here

end

/-! ## Nothing is left -/

section
variable {root : Root} {f : File}

variable {s : Scope}

theorem Node.Settled.kept {t t' : Ty} (ht : (Node.ty t).Settled)
    (h : (Node.ty t).Rewritten expanding s (.ty t')) : t' = t := by
  refine Node.ty.inj (h.eq_of_throughout (fun hexps hu => ?_) ht)
  obtain ⟨r, hr, rfl⟩ := hexps
  cases hr with
  | mapped => cases (hu.inside (.head _)).here
  | other => rfl

/-- **A run over plain mapped types leaves none.** -/
theorem Node.Rewritten.ruleless (hf : root.ExpandsPlainly f) {n n' : Node}
    (h : n.Rewritten expanding s n') (hs : root.Inside f (s.enter n)) : n'.Throughout Node.Ruleless := by
  induction h with
  | @container s n n' ds ds₁ ds₂ hds hlen _ hnew hn' ih =>
    cases hnew
    have hmems := Node.members?_of_withMembers? hn'
    refine .mk (fun i m hn => by subst hn; cases hmems) fun m hm => ?_
    rw [Node.children_of_members? hmems] at hm
    obtain ⟨d, hd, rfl⟩ := List.mem_map.1 hm
    refine forall_mem_of_getElem? (Q := fun d => (Node.decl d).Throughout Node.Ruleless) hlen
      (fun i d d' hd hd' => ih i d d' hd hd' (hs.within ?_)) d hd
    rw [Node.children_of_members? hds]
    exact List.mem_map_of_mem (List.mem_of_getElem? hd)
  | @rebuilt s n n₁ n₂ n' _ halike hlen hparts hmems hleft ih =>
    obtain rfl := hmems.eq
    have hin : ∀ m ∈ n₂.children, m.Throughout Node.Ruleless :=
      forall_mem_of_getElem? hlen fun i m m' hm hm' => ih i m m' hm hm' (hs.within (List.mem_of_getElem? hm))
    cases hleft with
    | other hty => exact .mk (fun i m hn => absurd hn (hty _)) hin
    | @ty t₁ t' ht =>
      have hrule : ∀ {i m}, t₁ = .object i [.mapped m] → m.asName = none →
          ((s.enter n).keysOn [] m.source).isSome ∧ (Node.ty m.target).Settled := by
        rintro i m rfl has
        cases n with
        | ty t =>
          obtain ⟨m₀, c, rfl, has₀, hsrc, htgt⟩ := halike.of_rule hlen hparts has
          obtain ⟨hkeys, hset, hset'⟩ := hf ⟨hs, rfl⟩ has₀
          rw [hset.kept hsrc, hset'.kept htgt]
          exact ⟨hkeys, hset'⟩
        | _ => cases halike
      obtain ⟨r, hr, rfl⟩ := ht
      cases hr with
      | mapped has _ hms =>
        have htgt := (hrule rfl has).2
        refine Node.Settled.ruleless (.mk rfl fun x hx => ?_)
        obtain ⟨y, hy, rfl⟩ := List.mem_map.1 hx
        obtain ⟨k, -, hk⟩ := exists_of_forall₂ hms.flip hy
        exact MappedMember.MakesFor.settled htgt hk
      | other hkeys =>
        refine .mk (fun i m hn has => ?_) hin
        have hnone : (s.enter n).keysOn [] m.source = none := hkeys i m (Node.ty.inj hn) has
        have hknown := (hrule (Node.ty.inj hn) has).1
        rw [hnone] at hknown
        cases hknown

end

/-! ## Second runs -/

theorem Node.Ruleless.relabelled {n n' : Node} (h : n.Ruleless) (hn : n.Relabelled n') : n'.Ruleless := by
  rintro i m rfl has
  obtain ⟨ms, hms, hall⟩ := hn.classMembers? rfl
  have hobj : n.isObject = true := (congrArg Traits.isObject hn.traits_eq).symm
  cases n with
  | ty t =>
    cases t with
    | object j ms =>
      cases hms
      cases ms with
      | nil => cases hall
      | cons x xs =>
        obtain ⟨hx, hxs⟩ := List.forall₂_cons.1 hall
        obtain rfl := List.map_eq_nil_iff.1 (List.forall₂_nil_right_iff.1 hxs)
        have hmpd : x.isMapped = true := (congrArg Traits.isMapped hx.traits_eq).symm
        cases x with
        | mapped m₀ =>
          refine h j m₀ rfl ?_
          have hlen := hx.children.length_eq
          cases hm : m₀.asName <;> simp_all [children, childrenOfMember]
        | _ => cases hmpd
    | _ => cases hobj
  | _ => cases hobj

theorem Node.Throughout.relabelled {P : Node → Prop} (hP : ∀ {n n'}, P n → n.Relabelled n' → P n') {n n' : Node}
    (h : n.Throughout P) (hn : n.Relabelled n') : n'.Throughout P := by
  induction h generalizing n' with
  | mk here _ ih =>
    refine .mk (hP here hn) fun m' hm' => ?_
    obtain ⟨i, hi, rfl⟩ := List.getElem_of_mem hm'
    have hlen := hn.children.length_eq
    exact ih _ (List.getElem_mem (hlen ▸ hi)) (hn.children.get (hlen ▸ hi) hi)

theorem Node.Throughout.expanded {f : File} (h : (Node.file f).Throughout Node.Ruleless) (root : Root) :
    root.Expanded f := by
  intro s i m hs has
  exact absurd has ((h.contains hs.contains).here i m rfl)

/-- **What a second run finds to expand.** Two runs over a file end, and the second gives back the very file that
the first one left exactly if no mapped type without an `as` clause stands in it whose keys are known there. A
mapped type that the first run came by and left has no keys that are known as seen from the given file, so the
others stand in what it put in, or have got their keys from what it put in. If all keys were known, and mapped
types held neither mapped types nor indexed accesses, then none is left. -/
theorem expandTypeMappings_again (root : Root) (f : File) :
    ∃ e e', Pass.expandTypeMappings.runAnew root false f = .ok e ∧
      Pass.expandTypeMappings.runAnew root false e.value = .ok e' ∧
      (e' = .keep (e.value.number root.deps.nextId).1 ↔ root.Expanded (e.value.number root.deps.nextId).1) ∧
      (Node.file (f.number root.deps.nextId).1).Rewritten expanding (.ofRoot root) (.file e.value) ∧
      (∀ {s t i m}, (Node.ty t).Rewritten expanding s (.ty (.object i [.mapped m])) → m.asName = none →
        (s.enter (.ty t)).keysOn [] m.source = none) ∧
      (root.ExpandsPlainly (f.number root.deps.nextId).1 → (Node.file e.value).Throughout Node.Ruleless ∧
        e' = .keep (e.value.number root.deps.nextId).1) := by
  obtain ⟨e, hgives, hrewritten⟩ := expandTypeMappings_rewritten (.ofRoot root) (f.number root.deps.nextId).1
  obtain ⟨e', hgives', -⟩ := expandTypeMappings_rewritten (.ofRoot root) (e.value.number root.deps.nextId).1
  have hiff := expandTypeMappings_eq_keep_iff hgives'
  refine ⟨e, e', expandTypeMappings_runAnew hgives, expandTypeMappings_runAnew hgives', hiff, hrewritten,
    fun h has => h.keys_unknown has, fun hplain => ?_⟩
  have hruleless := hrewritten.ruleless hplain .file
  refine ⟨hruleless, hiff.2 ?_⟩
  exact (hruleless.relabelled (fun h hn => h.relabelled hn) (e.value.relabelled root.deps.nextId)).expanded root

/-- The file `type M = { [K in "a"]: t }` with the identities from `k` on. -/
def mappedAlias (k : NodeId) (t : Ty) : File :=
  ⟨{ id := k }, [], [.typeAlias ⟨{ id := k + 1 }, true, "M", [], .object { id := k + 2 } [.mapped ⟨{ id := k + 3 },
    .default, .noop, "K", .literal (k + 4) (.str "a"), none, .noop, t⟩], .noPath⟩], .root "lib"⟩

theorem mappedAlias_expandsPlainly (root : Root) (k : NodeId) :
    root.ExpandsPlainly (mappedAlias k (.literal (k + 5) (.str "x"))) := by
  let m : MappedMember :=
    ⟨{ id := k + 3 }, .default, .noop, "K", .literal (k + 4) (.str "a"), none, .noop, .literal (k + 5) (.str "x")⟩
  let nodes : List Node := [.file (mappedAlias k (.literal (k + 5) (.str "x"))),
    .decl (.typeAlias ⟨{ id := k + 1 }, true, "M", [], .object { id := k + 2 } [.mapped m], .noPath⟩),
    .ty (.object { id := k + 2 } [.mapped m]), .member (.mapped m), .ty m.source, .ty m.target]
  have hclos : ∀ n ∈ nodes, ∀ n' ∈ n.children, n' ∈ nodes := by
    simp [nodes, m, mappedAlias, Node.children, Node.childrenOfDecl, Node.childrenOfTy, Node.childrenOfMember]
  have hnodes : ∀ {n}, (mappedAlias k (.literal (k + 5) (.str "x"))).Contains n → n ∈ nodes := by
    intro n hn
    induction hn with
    | file => exact .head _
    | child _ hm ih => exact hclos _ ih _ hm
  have hset : ∀ i (v : String), (Node.ty (.literal i (.str v))).Settled := fun _ _ =>
    .mk rfl fun _ h => by cases h
  intro s i m' hs _
  obtain ⟨-, rfl⟩ : i = { id := k + 2 } ∧ m' = m := by simpa [nodes, m] using hnodes hs.contains
  exact ⟨by rw [Scope.keysOn_literal]; rfl, hset _ _, hset _ _⟩

/-- The type `{ [J in K]: string }`. -/
def overKey : Ty := .object {} [.mapped ⟨{}, .default, .noop, "J", .ref {} ["K"] [], none, .noop, .string⟩]

def aloneRoot : Root := (Library.mk "lib" (mappedAlias 0 overKey) []).root false

/-- Nothing is left of `{ [K in "a"]: "x" }`. In `{ [K in "a"]: { [J in K]: string } }` the inner keys are known
only when the outer one is put in, and the second run expands them. -/
theorem expandTypeMappings_again_nested :
    (∃ e e', Pass.expandTypeMappings.runAnew aloneRoot false (mappedAlias 0 (.literal 5 (.str "x"))) = .ok e ∧
      Pass.expandTypeMappings.runAnew aloneRoot false e.value = .ok e' ∧ e'.changed = false) ∧
    ∃ e e', Pass.expandTypeMappings.runAnew aloneRoot false (mappedAlias 0 overKey) = .ok e ∧
      Pass.expandTypeMappings.runAnew aloneRoot false e.value = .ok e' ∧ e'.changed = true ∧
      ¬ aloneRoot.Expanded (e.value.number aloneRoot.deps.nextId).1 := by
  constructor
  · obtain ⟨e, e', he, he', -, -, -, hplain⟩ := expandTypeMappings_again aloneRoot (mappedAlias 0 (.literal 5 (.str "x")))
    exact ⟨e, e', he, he', by rw [(hplain (mappedAlias_expandsPlainly _ _)).2]; rfl⟩
  · obtain ⟨e, e', he, he', hiff, -⟩ := expandTypeMappings_again aloneRoot (mappedAlias 0 overKey)
    have hchanged : ((Pass.expandTypeMappings.runAnew aloneRoot false (mappedAlias 0 overKey)).toOption.bind fun e =>
        (Pass.expandTypeMappings.runAnew aloneRoot false e.value).toOption.map Edited.changed) = some true := by
      decide +kernel
    rw [he] at hchanged
    change (Pass.expandTypeMappings.runAnew aloneRoot false e.value).toOption.map Edited.changed = some true at hchanged
    rw [he'] at hchanged
    have hchanged := Option.some.inj hchanged
    refine ⟨e, e', he, he', hchanged, fun h => ?_⟩
    rw [hiff.2 h] at hchanged
    cases hchanged

end Ambient
