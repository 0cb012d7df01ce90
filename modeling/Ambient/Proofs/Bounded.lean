import Ambient.Proofs.Realm

/-!
# Searches come to an end

A question that takes up a pair makes the trail longer, and no pair comes on a trail twice
(`Arises.trail`). A question that takes up none asks only questions of a smaller rank
(`search_rank_lt`). So in a realm whose pairs are finitely many, a bound on the questions inside each
other is never reached (`answerWithin_ends`): with each pair that is taken up, one fewer is left, and
until the next is taken up, the rank gets smaller.
-/

namespace Ambient

/-! ## Ranks -/

/-- How many questions can come up inside each other before one takes up a pair. -/
def Question.rank : Question → Nat
  | .members _ _ | .ctors _ _ _ => 1
  | .keys _ t => t.links + 2
  | _ => 0

theorem Ty.links_le_of_mem {t : Ty} {ts : List Ty} (h : t ∈ ts) : t.links ≤ Ty.linksList ts := by
  induction ts with
  | nil => cases h
  | cons u us ih =>
    rw [Ty.linksList]
    rcases List.mem_cons.1 h with rfl | h
    · omega
    · have := ih h
      omega

/-- The search asks questions of a rank below `r` only. -/
abbrev AsksBelow {α : Type} (r : Nat) (p : Search α) : Prop :=
  p.Ensures (fun q => q.rank < r) (fun _ _ => True) fun _ => True

variable {r n : Nat} {q : Question} {σ' : Session} {T : Trail}

theorem asksBelow_about (h : q.rank < r) : AsksBelow r (Search.about q) :=
  .about h fun _ _ => trivial

theorem asksBelow_membersSearch (s : Scope) (q : QIdent) : AsksBelow 1 (membersSearch s q) := by
  unfold membersSearch
  split
  · trivial
  · refine (asksBelow_about Nat.one_pos).bind fun fs _ => ?_
    refine .bind (.concatMapM_any fun f _ => ?_) fun _ _ => trivial
    exact asksBelow_about Nat.one_pos

theorem asksBelow_ctorsSearch (s : Scope) (q : QIdent) (targs : List Ty) :
    AsksBelow 1 (ctorsSearch s q targs) := by
  refine (asksBelow_about Nat.one_pos).bind fun fs _ => .firstNonempty trivial fun f _ => ?_
  unfold ctorsOfFound
  split
  · exact (asksBelow_about Nat.one_pos).bind fun _ _ => trivial
  · trivial

theorem asksBelow_keysOfAlias (hr : 0 < r) (f : Found) : AsksBelow r (keysOfAlias f) := by
  unfold keysOfAlias
  split
  · split
    · exact asksBelow_about hr
    · trivial
  · trivial

theorem asksBelow_keysOfAliases (hr : 0 < r) (fs : List Found) : AsksBelow r (keysOfAliases fs) := by
  induction fs with
  | nil => trivial
  | cons f fs ih =>
    refine (asksBelow_keysOfAlias hr f).bind fun ks _ => ?_
    cases ks with
    | none => exact ih
    | some ks => trivial

theorem asksBelow_keysOfUnion (s : Scope) {ts : List Ty} (h : ∀ t ∈ ts, t.links + 2 < r) :
    AsksBelow r (keysOfUnion s ts) := by
  induction ts with
  | nil => trivial
  | cons t ts ih =>
    refine (asksBelow_about (h t (.head _))).bind fun ks _ => ?_
    cases ks with
    | none => trivial
    | some ks =>
      refine (ih fun t ht => h t (.tail _ ht)).bind fun ls _ => ?_
      cases ls <;> trivial

theorem asksBelow_keysSearch (s : Scope) (t : Ty) : AsksBelow (t.links + 2) (keysSearch s t) := by
  unfold keysSearch
  split
  · trivial
  · refine (asksBelow_keysOfUnion s fun t ht => ?_).bind fun _ _ => trivial
    have := Ty.links_le_of_mem ht
    rw [Ty.links]
    omega
  · unfold keysOfTarget
    split
    · trivial
    · split
      · trivial
      · exact (asksBelow_about (by simp [Question.rank])).bind fun _ _ => trivial
    · trivial
  · split
    · trivial
    · exact (asksBelow_about (by simp [Question.rank])).bind fun fs _ =>
        asksBelow_keysOfAliases (by omega) fs
  · trivial

/-- **A question that takes up no pair** asks only questions of a smaller rank. -/
theorem search_rank_lt (h : q.pair? = none) : AsksBelow q.rank q.search := by
  cases q with
  | name picker s q =>
    have hs : s.isSettled q = true := by simpa [Question.pair?] using h
    cases q with
    | nil => trivial
    | cons head tail => simp [Question.search, nameSearch, hs, Search.Ensures]
  | imported s i | exported s x e => cases h
  | members s q => exact asksBelow_membersSearch s q
  | contribution f => cases h
  | keys s t => exact asksBelow_keysSearch s t
  | aliasKeys f t => cases h
  | ctors s q targs => exact asksBelow_ctorsSearch s q targs
  | ctorsOf f c => cases h

/-! ## Finitely many pairs -/

/-- All pairs that questions of the realm take up are in the list, and no rank is above `rank`. -/
structure Realm.Bounded (D : Realm) (pairs : List (ScopeKey × Step)) (rank : Nat) : Prop where
  pair : ∀ {q p}, D.asked q → q.pair? = some p → p ∈ pairs
  rank : ∀ {q}, D.asked q → q.rank ≤ rank

/-- How many of the pairs are not on the trail. -/
def Trail.left (T : Trail) (pairs : List (ScopeKey × Step)) : Nat :=
  pairs.countP fun p => !T.contains p

theorem Trail.left_cons_lt {pairs : List (ScopeKey × Step)} {p : ScopeKey × Step} (hp : p ∈ pairs)
    (hT : p ∉ T) : Trail.left (p :: T) pairs < Trail.left T pairs := by
  induction pairs with
  | nil => cases hp
  | cons x xs ih =>
    have hle : Trail.left (p :: T) xs ≤ Trail.left T xs :=
      List.countP_mono_left fun y _ hy => by simp_all
    simp only [Trail.left, List.countP_cons] at ih hle ⊢
    by_cases hx : x = p
    · subst hx
      have hc : (x :: T).contains x = true ∧ T.contains x = false := by simp [hT]
      rw [hc.1, hc.2]
      exact Nat.lt_succ_of_le hle
    · have := ih ((List.mem_cons.1 hp).resolve_left (Ne.symm hx))
      have hc : (p :: T).contains x = T.contains x := by simp [hx]
      rw [hc]
      omega

/-- The questions of the realm get answers as it says, from sessions and to sessions as `I` says. -/
def Realm.Keeps (D : Realm) (I : Session → Prop) (answer : (q : Question) → Resolve q.Answer) :
    Prop :=
  ∀ q σ a σ', D.asked q → I σ → (answer q).run σ = .ok (a, σ') → D.given q a ∧ I σ'

theorem AnswersWell.keeps {D : Realm} {answer : (q : Question) → Resolve q.Answer}
    (h : AnswersWell D answer) : D.Keeps (Session.Faithful D) answer :=
  fun q σ a σ' hq hσ hrun => (h q σ a σ' hq hσ hrun).imp_right After.faithful

section
variable {D : Realm} {I : Session → Prop} {answer : (q : Question) → Resolve q.Answer} {α : Type}
  {post : α → Prop} {p : Search α} {σ : Session}

theorem Realm.Keeps.run (hans : D.Keeps I answer) (hp : p.Ensures D.asked D.given post) {r : α}
    (hσ : I σ) (h : (p.run answer).run σ = .ok (r, σ')) : post r ∧ I σ' := by
  induction p generalizing σ with
  | done a =>
    cases h
    exact ⟨hp, hσ⟩
  | ask q next ih =>
    obtain ⟨a, σ₁, ha, hn⟩ := run_ask_ok.1 h
    obtain ⟨hg, hσ₁⟩ := hans q σ a σ₁ hp.1 hσ ha
    exact ih a (hp.2 a hg) hσ₁ hn

theorem Realm.Keeps.run_ends (hans : D.Keeps I answer) {asked : Question → Prop}
    (hp : p.Ensures asked D.given post)
    (h : ∀ q, asked q → D.asked q ∧ ∀ σ, I σ → ∃ r, (answer q).run σ = .ok r) (hσ : I σ) :
    ∃ r, (p.run answer).run σ = .ok r := by
  induction p generalizing σ with
  | done a => exact ⟨(a, σ), rfl⟩
  | ask q next ih =>
    obtain ⟨hq, hends⟩ := h q hp.1
    obtain ⟨⟨a, σ₁⟩, ha⟩ := hends σ hσ
    obtain ⟨hg, hσ₁⟩ := hans q σ a σ₁ hq hσ ha
    obtain ⟨r, hr⟩ := ih a (hp.2 a hg) hσ₁
    exact ⟨r, run_ask_ok.2 ⟨a, σ₁, ha, hr⟩⟩

end

theorem memoized_ends {compute : Resolve q.Answer} {σ : Session} (h : ∃ r, compute.run σ = .ok r) :
    ∃ r, (Resolve.memoized q compute).run σ = .ok r := by
  obtain ⟨r, hr⟩ := h
  cases hm : σ.memo with
  | none => exact ⟨r, by rw [memoized_of_none hm, hr]⟩
  | some m =>
    cases hf : m.find? q with
    | some a => exact ⟨_, memoized_of_hit hm hf⟩
    | none => exact ⟨_, by rw [memoized_of_miss hm hf, hr]; rfl⟩

/-- **A question is answered** if the bound is above what is left: for each pair that is not on the
trail, the ranks that come before the next one, and the rank of the question itself. -/
theorem answerWithin_ends {D : Realm} {I : Session → Prop} {pairs : List (ScopeKey × Step)} {L : Nat}
    (hD : D.Bounded pairs L) (hI : ∀ n T, D.Keeps I (answerWithin n T)) :
    ∀ (n : Nat) (T : Trail) (q : Question) (σ : Session), D.asked q → I σ →
      Trail.left T pairs * (L + 2) + q.rank < n → ∃ r, (answerWithin n T q).run σ = .ok r
  | 0, _, _, _, _, _, hn => absurd hn (Nat.not_lt_zero _)
  | n + 1, T, q, σ, hq, hσ, hn => by
    by_cases hcut : q.CutOn T
    · exact ⟨_, answerWithin_cut hcut n σ⟩
    rw [answerWithin_open hcut]
    refine memoized_ends ?_
    have hans := hI n (q.trail T)
    cases hp : q.pair? with
    | none =>
      -- The trail stays, and the rank gets smaller.
      have hT : q.trail T = T := by simp [Question.trail, hp]
      refine hans.run_ends ((D.search q hq).and_any (search_rank_lt hp)) (fun q' hq' => ?_) hσ
      refine ⟨hq'.1, fun σ' hσ' => answerWithin_ends hD hI n _ q' σ' hq'.1 hσ' ?_⟩
      have hr := hq'.2
      rw [hT]
      omega
    | some p =>
      -- One pair fewer is left, which makes up for any rank.
      have hT : q.trail T = p :: T := by simp [Question.trail, hp]
      have hlt : Trail.left (p :: T) pairs < Trail.left T pairs :=
        Trail.left_cons_lt (hD.pair hq hp) fun h => hcut ⟨p, hp, h⟩
      refine hans.run_ends (D.search q hq) (fun q' hq' => ⟨hq', fun σ' hσ' => ?_⟩) hσ
      refine answerWithin_ends hD hI n _ q' σ' hq' hσ' ?_
      have hr := hD.rank hq'
      have hmul : (Trail.left (p :: T) pairs + 1) * (L + 2) ≤ Trail.left T pairs * (L + 2) :=
        Nat.mul_le_mul_right _ hlt
      rw [Nat.succ_mul] at hmul
      rw [hT]
      omega

/-! ## Larger bounds -/

theorem run_ok_mono {f g : (q : Question) → Resolve q.Answer}
    (h : ∀ q σ r, (f q).run σ = .ok r → (g q).run σ = .ok r) {α : Type} {p : Search α} {σ : Session}
    {r : α × Session} (hr : (p.run f).run σ = .ok r) : (p.run g).run σ = .ok r := by
  induction p generalizing σ with
  | done a => exact hr
  | ask q next ih =>
    obtain ⟨a, σ₁, ha, hn⟩ := run_ask_ok.1 hr
    exact run_ask_ok.2 ⟨a, σ₁, h q σ _ ha, ih a hn⟩

theorem memoized_ok_mono {c c' : Resolve q.Answer} {σ : Session}
    (h : ∀ r, c.run σ = .ok r → c'.run σ = .ok r) {r : q.Answer × Session}
    (hr : (Resolve.memoized q c).run σ = .ok r) : (Resolve.memoized q c').run σ = .ok r := by
  cases hm : σ.memo with
  | none =>
    rw [memoized_of_none hm] at hr ⊢
    exact h r hr
  | some m =>
    cases hf : m.find? q with
    | some a => rwa [memoized_of_hit hm hf] at hr ⊢
    | none =>
      rw [memoized_of_miss hm hf] at hr ⊢
      cases hc : c.run σ with
      | error e => rw [hc] at hr; cases hr
      | ok x => rwa [h x hc, ← hc]

theorem answerWithin_succ : ∀ (n : Nat) (T : Trail) (q : Question) (σ : Session)
    (r : q.Answer × Session), (answerWithin n T q).run σ = .ok r →
    (answerWithin (n + 1) T q).run σ = .ok r
  | 0, _, _, _, _, h => by cases h
  | n + 1, T, q, σ, r, h => by
    by_cases hcut : q.CutOn T
    · rw [answerWithin_cut hcut] at h ⊢
      exact h
    · rw [answerWithin_open hcut] at h ⊢
      exact memoized_ok_mono
        (fun _ => run_ok_mono fun q' σ' r' => answerWithin_succ n (q.trail T) q' σ' r') h

theorem run_answerWithin_mono {m : Nat} (hnm : n ≤ m) {α : Type} {p : Search α} {σ : Session}
    {r : α × Session} (h : (p.run (answerWithin n T)).run σ = .ok r) :
    (p.run (answerWithin m T)).run σ = .ok r := by
  induction hnm with
  | refl => exact h
  | step _ ih => exact run_ok_mono (fun q σ r => answerWithin_succ _ T q σ r) ih

/-! ## Trails -/

/-- In the run of the search from `σ` the question `q'` is asked, in the session `σ'`. -/
inductive Search.Reaches {α : Type} (answer : (q : Question) → Resolve q.Answer) :
    Search α → Session → Question → Session → Prop
  | first {q : Question} {next : q.Answer → Search α} {σ : Session} :
    Reaches answer (.ask q next) σ q σ
  | later {q q' : Question} {next : q.Answer → Search α} {σ σ₁ σ' : Session} {a : q.Answer} :
    (answer q).run σ = .ok (a, σ₁) → Reaches answer (next a) σ₁ q' σ' →
      Reaches answer (.ask q next) σ q' σ'

/-- While the question `q` is answered on the trail `T`, in the session `σ`, the question `q'` comes
up on the trail `T'`, in the session `σ'`. -/
inductive Arises : Nat → Trail → Question → Session → Trail → Question → Session → Prop
  | self {n : Nat} {T : Trail} {q : Question} {σ : Session} : Arises n T q σ T q σ
  | inside {n : Nat} {T T' : Trail} {q q₁ q' : Question} {σ σ₁ σ' : Session} :
    ¬ q.CutOn T → (∀ m, σ.memo = some m → m.find? q = none) →
      q.search.Reaches (answerWithin n (q.trail T)) σ q₁ σ₁ →
      Arises n (q.trail T) q₁ σ₁ T' q' σ' → Arises (n + 1) T q σ T' q' σ'

theorem Search.Reaches.faithful {D : Realm} {α : Type} {post : α → Prop} {p : Search α} {σ : Session}
    (h : p.Reaches (answerWithin n T) σ q σ') (hp : p.Ensures D.asked D.given post) (hσ : σ.Faithful D) :
    D.asked q ∧ σ'.Faithful D := by
  induction h with
  | first => exact ⟨hp.1, hσ⟩
  | later ha _ ih =>
    obtain ⟨hg, hafter⟩ := answerWithin_after D n T _ _ _ _ hp.1 hσ ha
    exact ih (hp.2 _ hg) hafter.faithful

/-- **What a search takes up** on its way: no pair twice, none that was on the trail, and only pairs
of the realm's questions. -/
theorem Arises.trail {D : Realm} {T' : Trail} {q' : Question} {σ : Session}
    (h : Arises n T q σ T' q' σ') (hq : D.asked q) (hσ : σ.Faithful D) :
    ∃ new, T' = new ++ T ∧ new.Nodup ∧ (∀ p ∈ new, p ∉ T) ∧
      ∀ p ∈ new, ∃ e, D.asked e ∧ e.pair? = some p := by
  induction h with
  | self => exact ⟨[], rfl, List.nodup_nil, by simp, by simp⟩
  | @inside n T T' q q₁ q' σ σ₁ σ' hcut _ hreach _ ih =>
    obtain ⟨hq₁, hσ₁⟩ := hreach.faithful (D.search q hq) hσ
    obtain ⟨new, rfl, hnd, hnew, hasked⟩ := ih hq₁ hσ₁
    cases hp : q.pair? with
    | none =>
      have hT : q.trail T = T := by simp [Question.trail, hp]
      rw [hT] at hnew ⊢
      exact ⟨new, rfl, hnd, hnew, hasked⟩
    | some p =>
      have hT : q.trail T = p :: T := by simp [Question.trail, hp]
      have hpT : p ∉ T := fun h => hcut ⟨p, hp, h⟩
      rw [hT] at hnew ⊢
      have hpn : p ∉ new := fun h => hnew p h (.head _)
      refine ⟨new ++ [p], by simp, ?_, ?_, ?_⟩
      · refine List.nodup_append.2 ⟨hnd, by simp, fun a ha b hb => ?_⟩
        rintro rfl
        exact hpn (List.mem_singleton.1 hb ▸ ha)
      · intro a ha
        rcases List.mem_append.1 ha with ha | ha
        · exact fun haT => hnew a ha (List.mem_cons_of_mem p haT)
        · exact List.mem_singleton.1 ha ▸ hpT
      · intro a ha
        rcases List.mem_append.1 ha with ha | ha
        · exact hasked a ha
        · exact ⟨q, hq, List.mem_singleton.1 ha ▸ hp⟩

end Ambient
