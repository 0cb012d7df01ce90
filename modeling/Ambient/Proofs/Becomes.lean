import Ambient.Proofs.Beside
import Ambient.Proofs.Normal

/-!
# What becomes of each node

A run that extracts interfaces rebuilds every node from what became of the nodes directly inside it,
hands each container its interfaces, and puts a reference in the place of a literal (`Node.Becomes`,
`recordExtraction_becomes`). What became of the parts of a literal was on the record before the literal
was replaced, so the record of that moment explains it (`Record.Explained`).
-/

namespace Ambient

/-- Does the type get a name at `s`, when the literals in it have theirs? -/
def Scope.GivesName (s : Scope) : Ty → Prop
  | .object _ ms => s.isExtractable = true ∧ ¬ Member.StayLiteral ms
  | _ => False

/-- What became of the node `n` at `s`, in a run with that record. -/
inductive Node.Becomes : Record → Scope → Node → Node → Prop
  | rebuilt {log : Record} {s : Scope} {n n' : Node} (hn : n.members? = none) (halike : n.Alike n')
    (hstays : ∀ t, n' = .ty t → ¬ (s.enter n).GivesName t)
    (hlength : n'.children.length = n.children.length)
    (h : ∀ (i : Nat) (m m' : Node), n.children[i]? = some m → n'.children[i]? = some m' →
      Becomes log (s.enter n) m m') : Becomes log s n n'
  | container {log : Record} {s : Scope} {n n' : Node} {ds ds' : List Decl} {is : Pending}
    (hds : n.members? = some ds) (hn' : n.withMembers? (ds' ++ is.map .iface) = some n')
    (hgiven : log.Gives (s.enter n) is) (hlength : ds'.length = ds.length)
    (h : ∀ (i : Nat) (d d' : Decl), ds[i]? = some d → ds'[i]? = some d' →
      Becomes log (s.enter n) (.decl d) (.decl d')) : Becomes log s n n'
  | replaced {log later earlier : Record} {s : Scope} {info : NodeInfo} {ms ms' : List Member}
    {p : Placement}
    (hlog : log = later ++ .replaced (s.enter (.ty (.object info ms))) (.object info ms') p :: earlier)
    (hname : (s.enter (.ty (.object info ms))).GivesName (.object info ms'))
    (hlength : ms'.length = ms.length)
    (h : ∀ (i : Nat) (m m' : Member), ms[i]? = some m → ms'[i]? = some m' →
      Becomes earlier (s.enter (.ty (.object info ms))) (.member m) (.member m')) :
    Becomes log s (.ty (.object info ms))
      (.ty (p.reference (s.enter (.ty (.object info ms))) (.object info ms')))

/-- The node at `s` was rebuilt from what became of the nodes directly inside it. -/
structure Node.Rebuilds (log : Record) (s : Scope) (n n' : Node) : Prop where
  alike : n.Alike n'
  length_eq : n'.children.length = n.children.length
  parts : ∀ {i : Nat} {m m' : Node}, n.children[i]? = some m → n'.children[i]? = some m' →
    m.Becomes log (s.enter n) m'

theorem Node.Rebuilds.becomes {log : Record} {s : Scope} {n n' : Node} (h : n.Rebuilds log s n')
    (hn : n.members? = none) (hty : n.isTy = false) : n.Becomes log s n' := by
  refine .rebuilt hn h.alike (fun t ht => ?_) h.length_eq fun _ _ _ => h.parts
  subst ht
  cases h.alike <;> cases hty

/-- The members of a literal at `s`, and what became of them. -/
structure Renewed (log : Record) (s : Scope) (ms ms' : List Member) : Prop where
  length_eq : ms'.length = ms.length
  parts : ∀ {i : Nat} {m m' : Member}, ms[i]? = some m → ms'[i]? = some m' →
    (Node.member m).Becomes log s (.member m')

/-- The record of the moment explains every literal that is replaced. -/
def Record.Explained (log : Record) : Prop :=
  ∀ {later earlier : Record} {s : Scope} {t : Ty} {p : Placement},
    log = later ++ .replaced s t p :: earlier → ∃ (s₀ : Scope) (info : NodeInfo) (ms ms' : List Member),
      s = s₀.enter (.ty (.object info ms)) ∧ t = .object info ms' ∧ s.GivesName t ∧
        Renewed earlier s ms ms'

variable {ds : List Decl} {σ σ' : Session} {stem : String} {t : Ty}

variable {ds' : List Decl} {ms' : List Member} {info : NodeInfo} {pending pending' : PendingByScope}
  {α : Type}

theorem Node.Rebuilds.members {log : Record} {s : Scope}
    (h : (Node.ty t).Rebuilds log s (.ty (.object info ms'))) :
    ∃ ms, t = .object info ms ∧ Renewed log (s.enter (.ty t)) ms ms' := by
  obtain ⟨ms, rfl⟩ : ∃ ms, t = .object info ms := by
    cases h.alike with
    | leaf h => exact ⟨ms', rfl⟩
    | object i ms => exact ⟨ms, rfl⟩
  refine ⟨ms, rfl, by simpa [Node.children, Node.childrenOfTy] using h.length_eq, ?_⟩
  intro i m m' hm hm'
  refine h.parts (i := i) ?_ ?_
  · simp [Node.children, Node.childrenOfTy, hm]
  · simp [Node.children, Node.childrenOfTy, hm']

theorem Node.Becomes.mono {log log' : Record} {s : Scope} {n n' : Node} (h : n.Becomes log s n')
    (hlog : log <:+ log') : n.Becomes log' s n' := by
  induction h with
  | rebuilt hn halike hstays hlen _ ih =>
    exact .rebuilt hn halike hstays hlen fun i m m' hm hm' => ih i m m' hm hm' hlog
  | container hds hn' hgiven hlen _ ih =>
    exact .container hds hn' (hlog.subset hgiven) hlen fun i d d' hd hd' => ih i d d' hd hd' hlog
  | replaced heq hname hlen h _ =>
    obtain ⟨newer, rfl⟩ := hlog
    subst heq
    exact .replaced (List.append_assoc newer _ _).symm hname hlen h

/-! ## What stays of a node -/

theorem Node.withMembers?_cases {n n' : Node} (h : n.withMembers? ds = some n') :
    n'.members? = some ds ∧ n.isPart = false ∧ n'.isPart = false ∧ n.tparams = [] ∧
      n'.tparams = [] := by
  cases n with
  | file f =>
    cases h
    exact ⟨rfl, rfl, rfl, rfl, rfl⟩
  | decl d =>
    cases d <;> cases h
    all_goals exact ⟨rfl, rfl, rfl, rfl, rfl⟩
  | _ => cases h

theorem map_eq_of_getElem? {f : Node → α} {ns ns' : List Node} (hlen : ns'.length = ns.length)
    (h : ∀ (i : Nat) (m m' : Node), ns[i]? = some m → ns'[i]? = some m' → f m' = f m) :
    ns'.map f = ns.map f := by
  refine List.ext_getElem (by simpa using hlen) fun i h₁ h₂ => ?_
  rw [List.length_map] at h₁ h₂
  rw [List.getElem_map, List.getElem_map]
  exact h i _ _ (List.getElem?_eq_getElem h₂) (List.getElem?_eq_getElem h₁)

def Node.tparamName? : Node → Option Ident
  | .tparam p => some p.name
  | _ => none

/-- The names of the type parameters directly inside a node. -/
def Node.ownNames (n : Node) : List Ident := n.children.filterMap tparamName?

theorem Node.ownNames_sig (s : Signature) : (Node.sig s).ownNames = s.tparams.map (·.name) := by
  simp [ownNames, children, List.filterMap_map, Function.comp_def, tparamName?]

theorem Node.ownNames_cls (c : ClassDecl) : (Node.decl (.cls c)).ownNames = c.tparams.map (·.name) := by
  simp [ownNames, children, childrenOfDecl, List.filterMap_map, Function.comp_def, tparamName?]

theorem Node.ownNames_iface (i : InterfaceDecl) :
    (Node.decl (.iface i)).ownNames = i.tparams.map (·.name) := by
  simp [ownNames, children, childrenOfDecl, List.filterMap_map, Function.comp_def, tparamName?]

theorem Node.ownNames_typeAlias (a : AliasDecl) :
    (Node.decl (.typeAlias a)).ownNames = a.tparams.map (·.name) := by
  simp [ownNames, children, childrenOfDecl, List.filterMap_map, Function.comp_def, tparamName?,
    List.filterMap_cons]

theorem Node.ownNames_eq_of_parts {n n' : Node} (hlen : n'.children.length = n.children.length)
    (h : ∀ (i : Nat) (m m' : Node), n.children[i]? = some m → n'.children[i]? = some m' →
      m'.tparamName? = m.tparamName?) : n'.ownNames = n.ownNames := by
  have hnames := congrArg (List.filterMap fun x => x) (map_eq_of_getElem? hlen h)
  rwa [List.filterMap_map, List.filterMap_map] at hnames

/-- A node that got other parts introduces type parameters of the same names, if the type parameters
directly inside it and those of its signature kept their names. -/
theorem Node.Alike.names_tparams {n n' : Node} (h : n.Alike n') (hown : n'.ownNames = n.ownNames)
    (hsig : ∀ s s', n.children = [.sig s] → n'.children = [.sig s'] →
      s'.tparams.map (·.name) = s.tparams.map (·.name)) :
    n'.tparams.map (·.name) = n.tparams.map (·.name) := by
  cases h with
  | sig i ps ps' xs xs' r r' => rwa [ownNames_sig, ownNames_sig] at hown
  | cls c ps p is ms hp => rwa [ownNames_cls, ownNames_cls] at hown
  | iface i ps is ms => rwa [ownNames_iface, ownNames_iface] at hown
  | typeAlias a ps t => rwa [ownNames_typeAlias, ownNames_typeAlias] at hown
  | function f s' => exact hsig f.sig s' rfl rfl
  | call i l s s' | ctor i l s s' => exact hsig s s' rfl rfl
  | method m s' => exact hsig m.sig s' rfl rfl
  | funTy s s' | ctorTy i a s s' => exact hsig s s' rfl rfl
  | _ => rfl

namespace Node.Becomes

variable {log : Record} {s : Scope} {n n' : Node}

theorem isPart_eq (h : n.Becomes log s n') : n'.isPart = n.isPart := by
  cases h with
  | rebuilt _ halike => cases halike <;> rfl
  | container _ hn' =>
    obtain ⟨-, hn, hn', -⟩ := withMembers?_cases hn'
    rw [hn, hn']
  | replaced => rfl

theorem tparamName?_eq (h : n.Becomes log s n') : n'.tparamName? = n.tparamName? := by
  cases h with
  | rebuilt _ halike => cases halike <;> rfl
  | container _ hn' => cases n <;> cases n' <;> first | rfl | simp [withMembers?] at hn'
  | replaced => rfl

theorem typeKey?_eq (h : n.Becomes log s n') : n'.typeKey? = n.typeKey? := by
  cases h with
  | rebuilt _ halike => cases halike <;> rfl
  | container _ hn' => cases n <;> cases n' <;> first | rfl | simp [withMembers?] at hn'
  | replaced => rfl

theorem names_tparams (h : n.Becomes log s n') : n'.tparams.map (·.name) = n.tparams.map (·.name) := by
  induction h with
  | container _ hn' =>
    obtain ⟨-, -, -, hn, hn'⟩ := withMembers?_cases hn'
    rw [hn, hn']
  | replaced => rfl
  | @rebuilt log s n n' _ halike _ hlen h ih =>
    refine halike.names_tparams
      (ownNames_eq_of_parts hlen fun i m m' hm hm' => (h i m m' hm hm').tparamName?_eq) ?_
    intro s s' hs hs'
    exact ih 0 (.sig s) (.sig s') (by rw [hs]; rfl) (by rw [hs']; rfl)

end Node.Becomes

theorem Decl.TurnsAll.of_getElem? {given : Scope → Pending → Prop} {s : Scope}
    (hlen : ds'.length = ds.length)
    (h : ∀ (i : Nat) (d d' : Decl), ds[i]? = some d → ds'[i]? = some d' → d.Turns given s d') :
    Decl.TurnsAll given s ds ds' := by
  induction ds generalizing ds' with
  | nil => rw [List.length_eq_zero_iff.1 hlen]; exact .nil
  | cons d ds ih =>
    cases ds' with
    | nil => cases hlen
    | cons d' ds' =>
      exact .cons (h 0 d d' rfl rfl) (ih (Nat.succ.inj hlen) fun i e e' he he' => h (i + 1) e e' he he')

theorem Node.Becomes.turns {log : Record} {s : Scope} {n n' : Node} (h : n.Becomes log s n')
    (hn : n.isPart = false) : n.Turns log.Gives s n' := by
  induction h with
  | replaced => cases hn
  | @container log s n n' ds ds' is hds hn' hgiven hlen _ ih =>
    have hall := Decl.TurnsAll.of_getElem? hlen fun i d d' hd hd' => ih i d d' hd hd' rfl
    cases n with
    | file f =>
      cases hds
      cases hn'
      exact ⟨ds', is, rfl, hgiven, hall⟩
    | decl d =>
      obtain ⟨d', hd', rfl⟩ := Option.map_eq_some_iff.1 hn'
      exact Decl.Turns.container hds hd' hgiven hall
    | _ => cases hn
  | @rebuilt log s n n' hmems halike _ _ _ ih =>
    cases halike with
    | leaf =>
      cases n with
      | file f => cases hmems
      | decl d =>
        cases d with
        | imports i => exact .link (.imports i)
        | exportAs e => exact .link (.exportAs e)
        | exports x e =>
          cases e with
          | names xs m => exact .link (.names x xs m)
          | star a m => exact .link (.star x a m)
          | inline d => exact .inline (ih 0 (.decl d) (.decl d) rfl rfl rfl)
        | space | module | augmentation | global => cases hmems
        | _ => exact .plain rfl rfl rfl
      | _ => cases hn
    | cls | iface | enum | var | function | typeAlias => exact .plain rfl rfl rfl
    | inline x d d' => exact .inline (ih 0 (.decl d) (.decl d') rfl rfl rfl)
    | _ => cases hn

/-! ## The walk -/

/-- How the computations of a run end: the record only grows, and it explains what is on it. -/
def explaining : Logic Recording where
  World := { log : Record // log.Explained }
  le w w' := w.1 <:+ w'.1
  refl w := List.suffix_refl w.1
  trans := List.IsSuffix.trans
  ends w x P := ∀ pending σ r, ((x.run w.1).run pending).run σ = .ok r →
    ∃ w' : { log : Record // log.Explained }, r.1.1.2 = w'.1 ∧ w.1 <:+ w'.1 ∧ P r.1.1.1 w'
  pure h _ _ _ hr := by
    cases hr
    exact ⟨_, rfl, List.suffix_refl _, h⟩
  bind {w α β x f P Q} hx hf pending σ r hr := by
    simp only [StateT.run_bind] at hr
    cases hr₁ : ((x.run w.1).run pending).run σ with
    | error e => rw [hr₁] at hr; cases hr
    | ok r₁ =>
      rw [hr₁] at hr
      obtain ⟨⟨⟨a, log₁⟩, pending₁⟩, σ₁⟩ := r₁
      obtain ⟨w₁, hlog, hw₁, ha⟩ := hx pending σ _ hr₁
      obtain rfl : log₁ = w₁.1 := hlog
      obtain ⟨w₂, hlog₂, hw₂, hQ⟩ := hf a w₁ hw₁ ha pending₁ σ₁ r hr
      exact ⟨w₂, hlog₂, hw₁.trans hw₂, hQ⟩

theorem Rebuilt.rebuilds {log : Record} {s : Scope} {n n' : Node} {b : Bool}
    (h : Rebuilt (fun m m' _ => m.Becomes log (s.enter n) m') n n' b) : n.Rebuilds log s n' where
  alike := h.alike
  length_eq := h.parts.length_eq
  parts hm hm' := by
    obtain ⟨_, hb⟩ := h.parts.getElem? hm hm'
    exact hb

theorem Record.Explained.emitted {log : Record} (h : log.Explained) (c : Scope) (is : Pending) :
    Record.Explained (.emitted c is :: log) := by
  intro later earlier s t p hlog
  rcases List.cons_eq_append_iff.1 hlog with ⟨-, hhead⟩ | ⟨later', -, hlog'⟩
  · cases hhead
  · exact h hlog'

theorem Record.Explained.replaced {log : Record} (h : log.Explained) {s₀ : Scope} {ms : List Member}
    (hname : (s₀.enter (.ty (.object info ms))).GivesName (.object info ms'))
    (hms : Renewed log (s₀.enter (.ty (.object info ms))) ms ms') (p : Placement) :
    Record.Explained (.replaced (s₀.enter (.ty (.object info ms))) (.object info ms') p :: log) := by
  intro later earlier s t p hlog
  rcases List.cons_eq_append_iff.1 hlog with ⟨-, hhead⟩ | ⟨later', -, hlog'⟩
  · cases hhead
    exact ⟨s₀, info, ms, ms', rfl, rfl, hname, hms⟩
  · exact h hlog'

/-- A type is replaced if and only if it gets a name. -/
theorem placement?_isSome {s : Scope} {r : Option Placement} (hs : s.containers ≠ [])
    (h : ((placement? stem s t).run pending).run σ = .ok ((r, pending'), σ')) :
    r.isSome = true ↔ s.GivesName t := by
  unfold placement? at h
  split at h
  · rename_i info ms
    split at h
    · rename_i hstays
      cases h
      simp only [Bool.or_eq_true, Bool.not_eq_true', List.isEmpty_iff, hs, or_false] at hstays
      refine iff_of_false Bool.false_ne_true fun ⟨hext, hms⟩ => ?_
      rcases hstays with hstays | hstays
      · exact hms (or_assoc.1 hstays)
      · cases hext.symm.trans hstays
    · rename_i hgets
      simp only [Bool.or_eq_true, Bool.not_eq_true', List.isEmpty_iff, hs, or_false, not_or,
        Bool.not_eq_false] at hgets
      obtain ⟨⟨⟨hne, hdict⟩, hmpd⟩, hext⟩ := hgets
      simp only [StateT.run_bind] at h
      obtain ⟨r₁, hp, h⟩ := bind_eq_ok.1 h
      cases h
      refine iff_of_true rfl ⟨hext, ?_⟩
      rintro (hms | hms | hms)
      · exact hne hms
      · exact hdict hms
      · exact hmpd hms
  · rename_i hnot
    cases h
    refine iff_of_false Bool.false_ne_true fun hname => ?_
    cases t with
    | object info ms => exact hnot _ _ rfl
    | _ => exact hname

theorem object_of_placement {s : Scope} {p : Placement}
    (h : ((placement? stem s t).run pending).run σ = .ok ((some p, pending'), σ')) :
    ∃ info ms, t = .object info ms := by
  cases t with
  | object info ms => exact ⟨info, ms, rfl⟩
  | _ => cases h

section
variable {root : Root} {f : File}

variable {s : Scope}

theorem leaveTy_explained (stem : String) {w : explaining.World} {t' : Ty}
    (hs : root.Inside f (s.enter (.ty t))) (h : (Node.ty t).Rebuilds w.1 s (.ty t')) :
    explaining.ends w ((recordedHooks stem).leaveTy (s.enter (.ty t)) t') fun r w' =>
      (Node.ty t).Becomes w'.1 s (.ty (r.getD t')) := by
  intro pending σ r hr
  rw [leaveTy_run, StateT.run_bind] at hr
  obtain ⟨⟨⟨placement, pending'⟩, σ'⟩, hp, hr⟩ := bind_eq_ok.1 hr
  have hsome := placement?_isSome hs.containers_ne_nil hp
  cases placement with
  | none =>
    cases hr
    refine ⟨w, rfl, List.suffix_refl _, .rebuilt rfl h.alike (fun u hu => ?_) h.length_eq
      fun _ _ _ => h.parts⟩
    cases hu
    exact fun hname => Bool.false_ne_true (hsome.2 hname)
  | some p =>
    cases hr
    obtain ⟨info, ms', rfl⟩ := object_of_placement hp
    obtain ⟨ms, rfl, hms⟩ := h.members
    have hname := hsome.1 rfl
    refine ⟨⟨_, Record.Explained.replaced w.2 hname hms p⟩, rfl, List.suffix_cons _ _, ?_⟩
    exact .replaced (List.nil_append _).symm hname hms.length_eq fun _ _ _ => hms.parts

theorem newMembers_explained (stem : String) {w : explaining.World} {n : Node} (owner : Node)
    (hds : n.members? = some ds) (hlen : ds'.length = ds.length)
    (h : ∀ {i : Nat} {d d' : Decl}, ds[i]? = some d → ds'[i]? = some d' →
      (Node.decl d).Becomes w.1 (s.enter n) (.decl d')) :
    explaining.ends w ((recordedHooks stem).newMembers (s.enter n) owner ds') fun r w' =>
      ∀ {n'}, n.withMembers? (r.getD ds') = some n' → n.Becomes w'.1 s n' := by
  intro pending σ r hr
  rw [newMembers_run] at hr
  cases hr
  refine ⟨⟨_, Record.Explained.emitted w.2 _ _⟩, rfl, List.suffix_cons _ _, fun {n'} hn' => ?_⟩
  have hmems : ((pending.lookup (s.enter n).key).map fun is => ds' ++ is.map Decl.iface).getD ds' =
      ds' ++ (pending.waiting (s.enter n)).map .iface := by
    rw [PendingByScope.waiting]
    cases pending.lookup (s.enter n).key with
    | none => simp
    | some is => rfl
  rw [hmems] at hn'
  refine .container hds hn' (.head _) hlen fun i d d' hd hd' => ?_
  exact (h hd hd').mono (List.suffix_cons _ _)

theorem recordedHooks_builds (stem : String) :
    (recordedHooks stem).Builds explaining (fun s n => root.Inside f (s.enter n)) (fun _ _ p => p = none)
      (fun _ w s n n' _ => (n.members? = none → n.Rebuilds w.1 s n') ∧
        (n.members? ≠ none → n.Becomes w.1 s n'))
      (fun _ w s n n' _ => n.Becomes w.1 s n') where
  idle := {}
  child := Root.Inside.within
  mono _ hw h := h.mono hw
  plain _ hn _ h := ⟨fun _ => h.rebuilds, fun hsome => absurd hn hsome⟩
  enterFile _ := .pure rfl
  enterDecl _ := .pure rfl
  newMembers {w w' s n ds ds' b} owner _ hds hwlk := by
    have hlen : ds'.length = ds.length := by simpa using hwlk.length_eq
    have hparts : ∀ {i : Nat} {d d' : Decl}, ds[i]? = some d → ds'[i]? = some d' →
        (Node.decl d).Becomes w'.1 (s.enter n) (.decl d') := by
      intro i d d' hd hd'
      obtain ⟨_, hb⟩ := hwlk.getElem? (i := i) (by rw [List.getElem?_map, hd]; rfl)
        (by rw [List.getElem?_map, hd']; rfl)
      exact hb
    intro pending σ r hr
    obtain ⟨w'', hlog, hw, h⟩ := newMembers_explained stem owner hds hlen hparts pending σ r hr
    refine ⟨w'', hlog, hw, fun hn' => ⟨fun hnone => ?_, fun _ => h hn'⟩⟩
    cases hds.symm.trans hnone
  newClassMembers {w w' s n n' ms b} owner _ h hms := by
    refine .pure fun hn'' => ?_
    obtain rfl := Node.withClassMembers?_eq hms hn''
    have hn : n.members? = none := by
      rw [← h.alike.members?_eq, Node.members?_of_classMembers? hms]
    exact ⟨fun _ => h.rebuilds, fun hsome => absurd hn hsome⟩
  leaveFile {w w' s f f' p b} _ hp h := by
    subst hp
    exact h.2 (Option.some_ne_none _)
  leaveDecl {w w' s d d' p b} _ hp h := by
    subst hp
    refine .pure ?_
    by_cases hd : (Node.decl d).members? = none
    · exact (h.1 hd).becomes hd rfl
    · exact h.2 hd
  leaveTy hs h := leaveTy_explained stem hs (h.1 rfl)
  keep {w w' s n n' b} _ hn h := by
    have hnone : n.members? = none ∧ n.isTy = false := by
      cases n with
      | file f | decl d | ty t => cases hn
      | _ => exact ⟨rfl, rfl⟩
    exact (h.1 hnone.1).becomes hnone.1 hnone.2

end

/-- **What becomes of a file** in a run, and the record explains it. -/
theorem recordExtraction_becomes {root : Root} {f : File} {file : Edited File} {log : Record}
    (hrun : (recordExtraction stem (.ofRoot root) f).run σ = .ok ((file, log), σ')) :
    log.Explained ∧ (Node.file f).Becomes log (.ofRoot root) (.file file.value) := by
  simp only [recordExtraction, StateT.run_bind] at hrun
  obtain ⟨⟨⟨⟨file', log'⟩, pending'⟩, σ''⟩, hr, hrun⟩ := bind_eq_ok.1 hrun
  cases hrun
  have hstart : Record.Explained [] := fun hlog => by simp at hlog
  obtain ⟨⟨log', hexpl⟩, hlog, -, hbec⟩ :=
    walkFile_builds (recordedHooks_builds stem) f .file ⟨[], hstart⟩ _ _ _ hr
  obtain rfl : log = log' := hlog
  exact ⟨hexpl, hbec⟩

end Ambient
