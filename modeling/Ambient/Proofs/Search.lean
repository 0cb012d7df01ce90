import Ambient.Scope.Answer

/-!
# Searches and their runs

What holds of a `Search` whatever answers its questions, and what one step of `answerWithin` does.

* `Search.Ensures asked given post`: the search asks only questions in `asked`, and if every answer
  is as `given` says, its result is as `post` says. It is kept by every way in which searches are
  put together (`Ensures.bind`, `Ensures.concatMapM`, `Ensures.firstNonempty`).
* `run_ask_ok`: a run that ends well answered its first question well and then went on.
* `answerWithin_cut`, `answerWithin_open`: a question whose pair is on the trail is given up, and any
  other is answered from the memory or by its own search, one pair further on the trail
  (`memoized_of_none`, `memoized_of_hit`, `memoized_of_miss`).
-/

namespace Ambient

variable {asked' : Question → Prop} {ε : Type}

namespace Search

variable {α β : Type}

@[simp] theorem pure_eq (a : α) : (pure a : Search α) = .done a := rfl

@[simp] theorem done_bind (a : α) (f : α → Search β) : (Search.done a >>= f) = f a := rfl

@[simp] theorem ask_bind (q : Question) (next : q.Answer → Search α) (f : α → Search β) :
    (Search.ask q next >>= f) = .ask q fun a => next a >>= f := rfl

instance : LawfulMonad Search := LawfulMonad.mk' Search
  (fun x => by
    induction x with
    | done a => rfl
    | ask q next ih => exact congrArg (Search.ask q) (funext ih))
  (fun _ _ => rfl)
  (fun x f g => by
    induction x with
    | done a => rfl
    | ask q next ih => exact congrArg (Search.ask q) (funext ih))

theorem run_bind {m : Type → Type} [Monad m] [LawfulMonad m]
    (answer : (q : Question) → m q.Answer) (p : Search α) (f : α → Search β) :
    (p >>= f).run answer = p.run answer >>= fun a => (f a).run answer := by
  induction p with
  | done a => simp [run]
  | ask q next ih => simp [run, ih]

/-! ## What a search asks and finds -/

/-- The search asks only questions in `asked`, and if the answers are as `given` says, then its
result is as `post` says. -/
def Ensures (asked : Question → Prop) (given : (q : Question) → q.Answer → Prop)
    (post : α → Prop) : Search α → Prop
  | .done a => post a
  | .ask q next => asked q ∧ ∀ a, given q a → (next a).Ensures asked given post

namespace Ensures

variable {asked : Question → Prop} {given : (q : Question) → q.Answer → Prop}
  {post : α → Prop} {post' : β → Prop}

theorem done {a : α} (h : post a) : (Search.done a).Ensures asked given post := h

theorem about {q : Question} {post : q.Answer → Prop} (hq : asked q)
    (h : ∀ a, given q a → post a) : (Search.about q).Ensures asked given post :=
  ⟨hq, h⟩

theorem bind {p : Search α} {f : α → Search β} (hp : p.Ensures asked given post)
    (hf : ∀ a, post a → (f a).Ensures asked given post') :
    (p >>= f).Ensures asked given post' := by
  induction p with
  | done a => exact hf a hp
  | ask q next ih => exact ⟨hp.1, fun a ha => ih a (hp.2 a ha)⟩

theorem imp {given' : (q : Question) → q.Answer → Prop} {post' : α → Prop} {p : Search α}
    (hp : p.Ensures asked given post) (hq : ∀ q, asked q → asked' q)
    (hg : ∀ q a, asked q → given' q a → given q a) (h : ∀ a, post a → post' a) :
    p.Ensures asked' given' post' := by
  induction p with
  | done a => exact h a hp
  | ask q next ih => exact ⟨hq q hp.1, fun a ha => ih a (hp.2 a (hg q a hp.1 ha))⟩

theorem mono {post' : α → Prop} {p : Search α} (hp : p.Ensures asked given post)
    (hq : ∀ q, asked q → asked' q) (h : ∀ a, post a → post' a) : p.Ensures asked' given post' :=
  hp.imp hq (fun _ _ _ h => h) h

theorem and {given' : (q : Question) → q.Answer → Prop} {post' : α → Prop} {p : Search α}
    (hp : p.Ensures asked given post) (hp' : p.Ensures asked' given' post') :
    p.Ensures (fun q => asked q ∧ asked' q) (fun q a => given q a ∧ given' q a)
      (fun a => post a ∧ post' a) := by
  induction p with
  | done a => exact ⟨hp, hp'⟩
  | ask q next ih =>
    exact ⟨⟨hp.1, hp'.1⟩, fun a ha => ih a (hp.2 a ha.1) (hp'.2 a ha.2)⟩

/-- What a search asks whatever the answers are, it asks also if they are as expected. -/
theorem and_any {post' : α → Prop} {p : Search α} (hp : p.Ensures asked given post)
    (hp' : p.Ensures asked' (fun _ _ => True) post') :
    p.Ensures (fun q => asked q ∧ asked' q) given post := by
  induction p with
  | done a => exact hp
  | ask q next ih => exact ⟨⟨hp.1, hp'.1⟩, fun a ha => ih a (hp.2 a ha) (hp'.2 a trivial)⟩

theorem any (p : Search α) : p.Ensures (fun _ => True) given fun _ => True := by
  induction p with
  | done a => trivial
  | ask q next ih => exact ⟨trivial, fun a _ => ih a⟩

theorem nil {R : α → Prop} : (Search.done []).Ensures asked given fun as => ∀ a ∈ as, R a :=
  List.forall_mem_nil R

theorem orElse {post : List α → Prop} {p p' : Search (List α)} (hp : p.Ensures asked given post)
    (hp' : p'.Ensures asked given post) :
    (p >>= fun as => if !as.isEmpty then .done as else p').Ensures asked given post := by
  refine hp.bind fun as has => ?_
  split
  · exact has
  · exact hp'

theorem concatMapM_of_append {γ : Type} {post : List β → Prop} {f : γ → Search (List β)} {cs : List γ}
    (hnil : post []) (happ : ∀ {bs bs'}, post bs → post bs' → post (bs ++ bs'))
    (h : ∀ c ∈ cs, (f c).Ensures asked given post) :
    (Ambient.concatMapM f cs).Ensures asked given post := by
  induction cs with
  | nil => exact hnil
  | cons c cs ih =>
    refine (h c (.head _)).bind fun bs hbs => ?_
    exact (ih fun c hc => h c (.tail _ hc)).bind fun _ hbs' => happ hbs hbs'

theorem concatMapM_any {γ : Type} {f : γ → Search (List β)} {cs : List γ}
    (h : ∀ c ∈ cs, (f c).Ensures asked given fun _ => True) :
    (Ambient.concatMapM f cs).Ensures asked given fun _ => True :=
  concatMapM_of_append trivial (fun _ _ => trivial) h

theorem concatMapM {γ : Type} {R : β → Prop} {f : γ → Search (List β)} {cs : List γ}
    (h : ∀ c ∈ cs, (f c).Ensures asked given fun bs => ∀ b ∈ bs, R b) :
    (Ambient.concatMapM f cs).Ensures asked given fun bs => ∀ b ∈ bs, R b :=
  concatMapM_of_append (List.forall_mem_nil R) (fun h h' => List.forall_mem_append.2 ⟨h, h'⟩) h

theorem firstNonempty {γ : Type} {post : List β → Prop} {f : γ → Search (List β)} {cs : List γ}
    (hnil : post []) (h : ∀ c ∈ cs, (f c).Ensures asked given post) :
    (Ambient.firstNonempty f cs).Ensures asked given post := by
  induction cs with
  | nil => exact hnil
  | cons c cs ih =>
    refine (h c (.head _)).bind fun bs hbs => ?_
    cases bs with
    | nil => exact ih fun c hc => h c (.tail _ hc)
    | cons b bs => exact hbs

end Ensures

end Search

/-! ## Runs in a session -/

@[simp] theorem ok_bind {α β : Type} (a : α) (f : α → Except ε β) : (Except.ok a >>= f) = f a := rfl

@[simp] theorem error_bind {α β : Type} (e : ε) (f : α → Except ε β) :
    (Except.error e >>= f) = .error e := rfl

theorem bind_eq_ok {α β : Type} {x : Except ε α} {f : α → Except ε β} {b : β} :
    (x >>= f) = .ok b ↔ ∃ a, x = .ok a ∧ f a = .ok b := by
  cases x <;> simp

theorem map_eq_ok {α β : Type} {x : Except ε α} {f : α → β} {b : β} :
    x.map f = .ok b ↔ ∃ a, x = .ok a ∧ f a = b := by
  cases x <;> simp [Except.map]

@[simp] theorem map_ok {α β : Type} (f : α → β) (a : α) :
    (f <$> (Except.ok a : Except ε α)) = .ok (f a) := rfl

@[simp] theorem pure_eq_ok {α : Type} (a : α) : (pure a : Except ε α) = .ok a := rfl

theorem run_done {α : Type} (answer : (q : Question) → Resolve q.Answer) (a : α) (σ : Session) :
    ((Search.done a).run answer).run σ = .ok (a, σ) := rfl

theorem run_ask_ok {α : Type} {answer : (q : Question) → Resolve q.Answer} {q : Question}
    {next : q.Answer → Search α} {σ : Session} {r : α × Session} :
    ((Search.ask q next).run answer).run σ = .ok r ↔
      ∃ a σ₁, (answer q).run σ = .ok (a, σ₁) ∧ ((next a).run answer).run σ₁ = .ok r := by
  rw [Search.run, StateT.run_bind, bind_eq_ok, Prod.exists]

/-! ## The memory -/

section
variable {q : Question} {compute : Resolve q.Answer} {σ : Session}

theorem memoized_of_none (h : σ.memo = none) :
    (Resolve.memoized q compute).run σ = compute.run σ := by
  simp [Resolve.memoized, h]

theorem memoized_of_hit {m : Memo} {a : q.Answer} (h : σ.memo = some m)
    (ha : m.find? q = some a) : (Resolve.memoized q compute).run σ = .ok (a, σ) := by
  have hf : (σ.memo.map fun memo => memo.find? q) = some (some a) := by rw [h, Option.map_some, ha]
  simp only [Resolve.memoized, StateT.run_bind, StateT.run_get, pure_bind, hf, StateT.run_pure]
  rfl

/-- The session after a computation that the memory did not know: its result is kept if nothing was
cut since `cuts`. -/
def Session.keep (σ : Session) (cuts : Nat) (q : Question) (a : q.Answer) : Session :=
  if σ.cuts = cuts then { σ with memo := σ.memo.map fun memo => memo.store q a } else σ

theorem memoized_of_miss {m : Memo} (h : σ.memo = some m) (ha : m.find? q = none) :
    (Resolve.memoized q compute).run σ =
      (compute.run σ).map fun r => (r.1, r.2.keep σ.cuts q r.1) := by
  have hf : (σ.memo.map fun memo => memo.find? q) = some none := by rw [h, Option.map_some, ha]
  simp only [Resolve.memoized, StateT.run_bind, StateT.run_get, pure_bind, hf]
  cases compute.run σ with
  | error e => rfl
  | ok r =>
    obtain ⟨a, σ'⟩ := r
    by_cases hc : σ'.cuts = σ.cuts <;> simp [Session.keep, Except.map, hc]

end

/-! ## One step of answering -/

/-- The trail that the search of a question gets. -/
def Question.trail (q : Question) (T : Trail) : Trail := q.pair?.toList ++ T

/-- Is the question given up on the trail? -/
def Question.CutOn (q : Question) (T : Trail) : Prop := ∃ p, q.pair? = some p ∧ p ∈ T

theorem answerWithin_cut {T : Trail} {q : Question} (h : q.CutOn T) (n : Nat) (σ : Session) :
    (answerWithin (n + 1) T q).run σ = .ok (q.unanswered, { σ with cuts := σ.cuts + 1 }) := by
  obtain ⟨p, hp, hT⟩ := h
  simp [answerWithin, hp, Trail.extend, hT]

theorem answerWithin_open {T : Trail} {q : Question} (h : ¬ q.CutOn T) (n : Nat) :
    answerWithin (n + 1) T q =
      Resolve.memoized q (q.search.run (answerWithin n (q.trail T))) := by
  cases hp : q.pair? with
  | none => simp [answerWithin, hp, Question.trail]
  | some p =>
    have hT : p ∉ T := fun hT => h ⟨p, hp, hT⟩
    simp [answerWithin, hp, Trail.extend, hT, Question.trail]

end Ambient
