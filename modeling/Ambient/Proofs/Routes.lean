import Ambient.Proofs.Declared

/-!
# Routes to declarations

A lookup comes by members, lists of names and modules, and takes what it finds from each. `Route` is what it
comes by, and `Leads` says to which declarations a route leads, as the forms of imports and exports have it.
This speaks of no trail and no memory, and does not say which of the places decides in which a name is looked
for.

Routes that part at two members, names or modules have an order (`Route.Before`); those that part in the place
where a name is looked for have none, since only one of them is taken. What a search finds is in the order of
routes that lead there, one for each declaration in the list (`Tagged`). This is kept by all ways in which
searches are put together, so it holds of the answers to all questions, of cut and remembered ones too
(`routeRealm`).
-/

namespace Ambient

/-! ## Lists with tags in order -/

/-- The elements of the list can be given tags as `R` says, in the order `D`. -/
def Tagged {ρ α : Type} (D : ρ → ρ → Prop) (R : ρ → α → Prop) (as : List α) : Prop :=
  ∃ ps : List (ρ × α), ps.map (·.2) = as ∧ (ps.Pairwise fun p p' => D p.1 p'.1) ∧ ∀ p ∈ ps, R p.1 p.2

namespace Tagged

variable {ρ τ α β : Type} {D : ρ → ρ → Prop} {E : τ → τ → Prop} {R : ρ → α → Prop} {as : List α}

theorem nil : Tagged D R [] := ⟨[], rfl, .nil, List.forall_mem_nil _⟩

theorem single {r : ρ} {a : α} (h : R r a) : Tagged D R [a] :=
  ⟨[(r, a)], rfl, List.pairwise_singleton _ _, fun _ hp => List.mem_singleton.1 hp ▸ h⟩

theorem toList {r : ρ} {o : Option α} (h : ∀ a, o = some a → R r a) : Tagged D R o.toList := by
  cases o with
  | none => exact nil
  | some a => exact single (h a rfl)

theorem positions (as : List α) : Tagged (· < ·) (fun (k : Nat) a => as[k]? = some a) as := by
  refine ⟨as.zipIdx.map fun p => (p.2, p.1), ?_, ?_, fun p hp => ?_⟩
  · rw [List.map_map]
    exact List.zipIdx_map_fst 0 as
  · have hlt : (as.zipIdx.map (·.2)).Pairwise (· < ·) := by
      rw [List.zipIdx_map_snd]
      exact List.pairwise_lt_range'
    exact List.pairwise_map.2 (List.pairwise_map.1 hlt)
  · obtain ⟨e, he, rfl⟩ := List.mem_map.1 hp
    exact List.mem_zipIdx_iff_getElem?.1 he

theorem retag {S : τ → α → Prop} (h : Tagged D R as) (g : ρ → τ) (hg : ∀ r r', D r r' → E (g r) (g r'))
    (hS : ∀ r a, R r a → S (g r) a) : Tagged E S as := by
  obtain ⟨ps, rfl, hD, hps⟩ := h
  refine ⟨ps.map fun p => (g p.1, p.2), by simp, ?_, fun p hp => ?_⟩
  · exact hD.map _ fun p p' => hg _ _
  · obtain ⟨e, he, rfl⟩ := List.mem_map.1 hp
    exact hS _ _ (hps e he)

theorem mono {S : ρ → α → Prop} (h : Tagged D R as) (hS : ∀ r a, R r a → S r a) : Tagged D S as :=
  h.retag id (fun _ _ h => h) hS

theorem filterMap {S : ρ → β → Prop} (h : Tagged D R as) (g : α → Option β)
    (hS : ∀ r a b, R r a → g a = some b → S r b) : Tagged D S (as.filterMap g) := by
  obtain ⟨ps, rfl, hD, hps⟩ := h
  refine ⟨ps.filterMap fun p => (g p.2).map fun b => (p.1, b), ?_, ?_, fun p hp => ?_⟩
  · simp [List.map_filterMap, List.filterMap_map, Function.comp_def]
  · refine hD.filterMap _ fun p p' hp e he e' he' => ?_
    obtain ⟨b, -, rfl⟩ := Option.map_eq_some_iff.1 he
    obtain ⟨b', -, rfl⟩ := Option.map_eq_some_iff.1 he'
    exact hp
  · obtain ⟨e, he, hp⟩ := List.mem_filterMap.1 hp
    obtain ⟨b, hb, rfl⟩ := Option.map_eq_some_iff.1 hp
    exact hS _ _ _ (hps e he) hb

theorem map {S : ρ → β → Prop} (h : Tagged D R as) (f : α → β) (hS : ∀ r a, R r a → S r (f a)) :
    Tagged D S (as.map f) := by
  rw [← List.filterMap_eq_map]
  exact h.filterMap _ fun r a b hr hb => Option.some.inj hb ▸ hS r a hr

theorem filter (h : Tagged D R as) (keep : α → Bool) :
    Tagged D (fun r a => R r a ∧ keep a = true) (as.filter keep) := by
  rw [← List.filterMap_eq_filter]
  refine h.filterMap _ fun r a b hr hb => ?_
  obtain ⟨rfl, hkeep⟩ := Option.guard_eq_some_iff.1 hb
  exact ⟨hr, hkeep⟩

theorem append {bs : List α} {S : ρ → α → Prop} (h : Tagged D R as) (h' : Tagged D S bs)
    (hD : ∀ r a r' b, R r a → S r' b → D r r') : Tagged D (fun r a => R r a ∨ S r a) (as ++ bs) := by
  obtain ⟨ps, rfl, hps, hR⟩ := h
  obtain ⟨qs, rfl, hqs, hS⟩ := h'
  refine ⟨ps ++ qs, List.map_append, List.pairwise_append.2 ⟨hps, hqs, fun p hp q hq => ?_⟩, ?_⟩
  · exact hD _ _ _ _ (hR p hp) (hS q hq)
  · intro p hp
    exact (List.mem_append.1 hp).imp (hR p) (hS p)

section
variable {υ : Type} {F : υ → υ → Prop} {T : υ → β → Prop} {g : ρ → τ → υ} {ps : List (ρ × α)}

/-- The step of an induction over a list: the first element gives `bs`, and the others `bs'`. -/
theorem append_first (hD : ∀ {r r'} t t', D r r' → F (g r t) (g r' t'))
    (hE : ∀ r {t t'}, E t t' → F (g r t) (g r t')) {p : ρ × α} (hp : ∀ q ∈ ps, D p.1 q.1)
    {bs bs' : List β} (h : Tagged E (fun t b => T (g p.1 t) b) bs)
    (h' : Tagged F (fun u b => (∃ q ∈ ps, ∃ t, u = g q.1 t) ∧ T u b) bs') :
    Tagged F (fun u b => (∃ q ∈ p :: ps, ∃ t, u = g q.1 t) ∧ T u b) (bs ++ bs') := by
  have hfirst : Tagged F (fun u b => (∃ t, u = g p.1 t) ∧ T u b) bs :=
    h.retag (g p.1) (fun _ _ => hE p.1) fun t b hb => ⟨⟨t, rfl⟩, hb⟩
  refine (hfirst.append h' ?_).mono ?_
  · rintro _ b _ b' ⟨⟨t, rfl⟩, -⟩ ⟨⟨q, hq, t', rfl⟩, -⟩
    exact hD t t' (hp q hq)
  · rintro u b (⟨⟨t, hu⟩, hb⟩ | ⟨⟨q, hq, hu⟩, hb⟩)
    · exact ⟨⟨p, .head _, t, hu⟩, hb⟩
    · exact ⟨⟨q, .tail _ hq, hu⟩, hb⟩

theorem flatMap (h : Tagged D R as) (g : ρ → τ → υ) (hD : ∀ {r r'} t t', D r r' → F (g r t) (g r' t'))
    (hE : ∀ r {t t'}, E t t' → F (g r t) (g r t')) {f : α → List β}
    (hf : ∀ r a, R r a → Tagged E (fun t b => T (g r t) b) (f a)) : Tagged F T (as.flatMap f) := by
  obtain ⟨ps, rfl, hpairs, hps⟩ := h
  suffices h : Tagged F (fun u b => (∃ q ∈ ps, ∃ t, u = g q.1 t) ∧ T u b) ((ps.map (·.2)).flatMap f) from
    h.mono fun _ _ h => h.2
  induction hpairs with
  | nil => exact nil
  | @cons p ps hp _ ih =>
    exact append_first (g := g) hD hE hp (hf _ _ (hps p (.head _))) (ih fun q hq => hps q (.tail _ hq))

theorem concatMapM {asked : Question → Prop} {given : (q : Question) → q.Answer → Prop} (h : Tagged D R as)
    (g : ρ → τ → υ) (hD : ∀ {r r'} t t', D r r' → F (g r t) (g r' t'))
    (hE : ∀ r {t t'}, E t t' → F (g r t) (g r t')) {f : α → Search (List β)}
    (hf : ∀ r a, R r a → (f a).Ensures asked given (Tagged E fun t b => T (g r t) b)) :
    (Ambient.concatMapM f as).Ensures asked given (Tagged F T) := by
  obtain ⟨ps, rfl, hpairs, hps⟩ := h
  suffices h : (Ambient.concatMapM f (ps.map (·.2))).Ensures asked given
      (Tagged F fun u b => (∃ q ∈ ps, ∃ t, u = g q.1 t) ∧ T u b) from
    h.mono (fun _ h => h) fun bs hbs => hbs.mono fun _ _ h => h.2
  induction hpairs with
  | nil => exact nil
  | @cons p ps hp _ ih =>
    refine (hf _ _ (hps p (.head _))).bind fun bs hbs => ?_
    refine (ih fun q hq => hps q (.tail _ hq)).bind fun bs' hbs' => ?_
    exact append_first (g := g) hD hE hp hbs hbs'

end

end Tagged

/-! ## Routes -/

/-- A place where the first part of a name is looked for. -/
inductive Place where
  /-- The scope so many steps further out. -/
  | around (k : Nat)
  | modules
  | augmentations
  | libraries

/-- Where a module is taken from. -/
inductive Source where
  | file
  /-- The file of the library at that position among those depended on. -/
  | library (k : Nat)
  /-- The library that has the name of the module. -/
  | whole

/-- What a search comes by on its way to a declaration. -/
inductive Route where
  | here
  /-- By the member, form or name at that position, and on. -/
  | item (k : Nat) (r : Route)
  | take (m : Source) (r : Route)
  | look (p : Place) (r : Route)
  /-- By a first route, and on from where it leads. -/
  | into (r r' : Route)

/-- Modules of the file come first, then those of the libraries in order. -/
inductive Source.Before : Source → Source → Prop
  | library {k : Nat} : Before .file (.library k)
  | next {k k' : Nat} (h : k < k') : Before (.library k) (.library k')
  | fileWhole : Before .file .whole
  | libraryWhole {k : Nat} : Before (.library k) .whole

/-- The first route comes before the second where they part, and they part at two positions or modules. What is
inside a declaration comes before itself. -/
inductive Route.Before : Route → Route → Prop
  | items {k k' : Nat} {r r' : Route} (h : k < k') : Before (.item k r) (.item k' r')
  | item {k : Nat} {r r' : Route} (h : Before r r') : Before (.item k r) (.item k r')
  | inside {k : Nat} {r : Route} : Before (.item k r) .here
  | takes {m m' : Source} {r r' : Route} (h : m.Before m') : Before (.take m r) (.take m' r')
  | take {m : Source} {r r' : Route} (h : Before r r') : Before (.take m r) (.take m r')
  | look {p : Place} {r r' : Route} (h : Before r r') : Before (.look p r) (.look p r')
  | first {r₁ r₂ r₁' r₂' : Route} (h : Before r₁ r₁') : Before (.into r₁ r₂) (.into r₁' r₂')
  | second {r r₂ r₂' : Route} (h : Before r₂ r₂') : Before (.into r r₂) (.into r r₂')

theorem Route.Before.irrefl (r : Route) : ¬ r.Before r := by
  intro h
  induction r with
  | here => cases h
  | item k r ih =>
    cases h with
    | items h => exact Nat.lt_irrefl k h
    | item h => exact ih h
  | take m r ih =>
    cases h with
    | takes h => cases h with | next h => exact Nat.lt_irrefl _ h
    | take h => exact ih h
  | look p r ih => cases h with | look h => exact ih h
  | into r r' ih ih' =>
    cases h with
    | first h => exact ih h
    | second h => exact ih' h

/-- A file that modules are taken from. -/
inductive Scope.FileAt (s : Scope) : Source → Scope → Prop
  | file {c : Scope} (h : s.fileScope? = some c) : FileAt s .file c
  | library {k : Nat} {c : Scope} (h : s.dependencyScopes[k]? = some c) : FileAt s (.library k) c

/-- The routes to the modules named `x`. -/
inductive Scope.ModuleAt (s : Scope) (x : Ident) : Route → Found → Prop
  | declared {m : Source} {c : Scope} {k : Nat} {h : SpaceHead} {ms : List Decl} (hc : s.FileAt m c)
    (hk : c.members[k]? = some (.module h ms)) (hx : h.name = x) :
    ModuleAt s x (.take m (.item k .here)) ⟨.module h ms, c⟩
  | whole {lib : Dependency} {r : Scope} (hlib : s.root.deps.find? x = some lib)
    (hr : s.dependencyRoot? x = some r) : ModuleAt s x (.take .whole .here) ⟨lib.module, r⟩

/-- The routes to the augmentations in the file. -/
inductive Scope.AugmentationAt (s : Scope) : Route → Found → Prop
  | file {c : Scope} {k : Nat} {h : AugmentHead} {ms : List Decl} (hc : s.fileScope? = some c)
    (hk : c.members[k]? = some (.augmentation h ms)) :
    AugmentationAt s (.item k .here) ⟨.augmentation h ms, c⟩
  | module {c : Scope} {k l : Nat} {h : SpaceHead} {h' : AugmentHead} {ms ms' : List Decl}
    (hc : s.fileScope? = some c) (hk : c.members[k]? = some (.module h ms))
    (hl : ms[l]? = some (.augmentation h' ms')) :
    AugmentationAt s (.item k (.item l .here)) ⟨.augmentation h' ms', c.enter (.decl (.module h ms))⟩

/-- The module that an import takes names from. -/
def Importee.module? : Importee → Option Ident
  | .required m | .module m => some m
  | .inner _ => none

/-- The form at `k` binds `x` to the modules named `m`. -/
inductive ImportDecl.TakesModule (i : ImportDecl) : Nat → Ident → Ident → Prop
  | required {k : Nat} {m x : Ident} (hm : i.source = .required m) (hk : i.imported[k]? = some (.name x)) :
    TakesModule i k m x
  | star {k : Nat} {m x : Ident} (hm : i.source.module? = some m)
    (hk : i.imported[k]? = some (.star (some x))) : TakesModule i k m x

/-- The form at `k` binds `x` to what the modules named `m` make visible as `y`, which it lists at `l`. -/
inductive ImportDecl.TakesName (i : ImportDecl) : Nat → Nat → Ident → Ident → Ident → Prop
  | default {k : Nat} {m x : Ident} (hm : i.source = .module m) (hk : i.imported[k]? = some (.name x)) :
    TakesName i k 0 m Ident.defaultExport x
  | listed {k l : Nat} {m y x : Ident} {z : Option Ident} {xs : List (Ident × Option Ident)}
    (hm : i.source.module? = some m) (hk : i.imported[k]? = some (.destructured xs))
    (hl : xs[l]? = some (y, z)) (hx : z.getD y = x) : TakesName i k l m y x

/-- The name under which an export that lists `q`, with `y` after it, makes visible what `q` denotes. -/
def ExportKind.listedAs? (kind : ExportKind) (q : QIdent) (y : Option Ident) : Option Ident :=
  match kind with
  | .named => y.or q.getLast?
  | .defaulted => some Ident.defaultExport
  | .namespaced => none

/-- What a route is a route to. -/
inductive Goal where
  /-- What the name denotes. -/
  | name (s : Scope) (q : QIdent)
  /-- What the further parts of a name denote if those before denote `f`. -/
  | tail (f : Found) (xs : List Ident)
  | member (s : Scope) (x : Ident)
  /-- What the container makes visible under the name. -/
  | shown (s : Scope) (x : Ident)
  | imported (s : Scope) (i : ImportDecl) (x : Ident)
  | exported (s : Scope) (h : ExportHead) (e : Exportee) (x : Ident)

/-- To which declarations the routes lead. -/
inductive Leads : Goal → Route → Found → Prop
  -- A name, by its first part in the scopes around, among modules, in augmentations and in libraries.
  | around {s c : Scope} {k : Nat} {x : Ident} {xs : List Ident} {r r' : Route} {g f : Found}
    (hs : s.isSettled (x :: xs) = false) (hk : s.outwards[k]? = some c) (hr : Leads (.member c x) r g)
    (hr' : Leads (.tail g xs) r' f) : Leads (.name s (x :: xs)) (.look (.around k) (.into r r')) f
  | module {s : Scope} {x : Ident} {xs : List Ident} {r r' : Route} {g f : Found}
    (hs : s.isSettled (x :: xs) = false) (hr : s.ModuleAt x r g) (hr' : Leads (.tail g xs) r' f) :
    Leads (.name s (x :: xs)) (.look .modules (.into r r')) f
  | augmented {s : Scope} {x : Ident} {xs : List Ident} {r r₁ r₂ : Route} {g₀ g f : Found}
    (hs : s.isSettled (x :: xs) = false) (hr : s.AugmentationAt r g₀) (hr₁ : Leads (.member g₀.inner x) r₁ g)
    (hr₂ : Leads (.tail g xs) r₂ f) : Leads (.name s (x :: xs)) (.look .augmentations (.into r (.into r₁ r₂))) f
  | library {s c : Scope} {k : Nat} {x : Ident} {xs : List Ident} {r r' : Route} {g f : Found}
    (hs : s.isSettled (x :: xs) = false) (hk : s.dependencyScopes[k]? = some c)
    (hr : Leads (.member c x) r g) (hr' : Leads (.tail g xs) r' f) :
    Leads (.name s (x :: xs)) (.look .libraries (.item k (.into r r'))) f
  -- The further parts. Those of an enumeration are not looked at.
  | last {f : Found} : Leads (.tail f []) .here f
  | enum {f : Found} {e : EnumDecl} {x : Ident} (hf : f.decl = .enum e) : Leads (.tail f [x]) .here f
  | next {f g f' : Found} {x : Ident} {xs : List Ident} {r r' : Route} (hr : Leads (.shown f.inner x) r g)
    (hr' : Leads (.tail g xs) r' f') : Leads (.tail f (x :: xs)) (.into r r') f'
  -- From inside a container: its declarations, those of its global blocks, and what its imports bind.
  | declared {s : Scope} {k : Nat} {d : Decl} {x : Ident} (hk : s.members[k]? = some d)
    (hx : d.localName? = some x) : Leads (.member s x) (.item k .here) ⟨d.unwrapExport, s⟩
  | block {s : Scope} {k : Nat} {h : GlobalHead} {ms : List Decl} {x : Ident} {r : Route} {f : Found}
    (hk : s.members[k]? = some (.global h ms))
    (hr : Leads (.member (s.enter (.decl (.global h ms))) x) r f) : Leads (.member s x) (.item k r) f
  | bound {s : Scope} {k : Nat} {i : ImportDecl} {x : Ident} {r : Route} {f : Found}
    (hk : s.members[k]? = some (.imports i)) (hr : Leads (.imported s i x) r f) :
    Leads (.member s x) (.item k r) f
  -- From outside: its declarations, and what its exports bind.
  | own {s : Scope} {k : Nat} {d : Decl} {x : Ident} (hk : s.members[k]? = some d)
    (hx : d.ownName? = some x) : Leads (.shown s x) (.item k .here) ⟨d, s⟩
  | exported {s : Scope} {k : Nat} {h : ExportHead} {e : Exportee} {x : Ident} {r : Route} {f : Found}
    (hk : s.members[k]? = some (.exports h e)) (hr : Leads (.exported s h e x) r f) :
    Leads (.shown s x) (.item k r) f
  -- The forms of imports.
  | importedName {s : Scope} {i : ImportDecl} {k : Nat} {q : QIdent} {x : Ident} {r : Route} {f : Found}
    (hi : i.source = .inner q) (hk : i.imported[k]? = some (.name x)) (hr : Leads (.name s q) r f) :
    Leads (.imported s i x) (.item k r) f
  | importedModule {s : Scope} {i : ImportDecl} {k : Nat} {m x : Ident} {r : Route} {f : Found}
    (hi : i.TakesModule k m x) (hr : s.ModuleAt m r f) : Leads (.imported s i x) (.item k r) f
  | importedFrom {s : Scope} {i : ImportDecl} {k l : Nat} {m y x : Ident} {r r' : Route} {g f : Found}
    (hi : i.TakesName k l m y x) (hr : s.ModuleAt m r g) (hr' : Leads (.shown g.inner y) r' f) :
    Leads (.imported s i x) (.item k (.into r (.item l r'))) f
  -- The forms of exports. `export =` makes visible what is visible in a declaration, and the declaration.
  | inline {s : Scope} {h : ExportHead} {d : Decl} {x : Ident}
    (hx : (if h.kind = .defaulted then some Ident.defaultExport else d.name?) = some x) :
    Leads (.exported s h (.inline d) x) .here ⟨d, s⟩
  | listed {s : Scope} {h : ExportHead} {names : List (QIdent × Option Ident)} {k : Nat} {q : QIdent}
    {y : Option Ident} {x : Ident} {r : Route} {f : Found} (hk : names[k]? = some (q, y))
    (hx : h.kind.listedAs? q y = some x) (hr : Leads (.name s q) r f) :
    Leads (.exported s h (.names names none) x) (.item k r) f
  | assigned {s : Scope} {h : ExportHead} {names : List (QIdent × Option Ident)} {k : Nat} {q : QIdent}
    {y : Option Ident} {r : Route} {f : Found} (hk : names[k]? = some (q, y)) (hh : h.kind = .namespaced)
    (hr : Leads (.name s q) r f) :
    Leads (.exported s h (.names names none) Ident.defaultExport) (.item k (.into r .here)) f
  | opened {s : Scope} {h : ExportHead} {names : List (QIdent × Option Ident)} {k : Nat} {q : QIdent}
    {y : Option Ident} {x : Ident} {r r' : Route} {g f : Found} (hk : names[k]? = some (q, y))
    (hh : h.kind = .namespaced) (hr : Leads (.name s q) r g) (hr' : Leads (.shown g.inner x) r' f) :
    Leads (.exported s h (.names names none) x) (.item k (.into r r')) f
  | listedFrom {s : Scope} {h : ExportHead} {names : List (QIdent × Option Ident)} {l : Nat} {q : QIdent}
    {y : Option Ident} {m z x : Ident} {r r' : Route} {g f : Found} (hl : names[l]? = some (q, y))
    (hz : q.getLast? = some z) (hx : y.getD z = x) (hr : s.ModuleAt m r g)
    (hr' : Leads (.shown g.inner z) r' f) :
    Leads (.exported s h (.names names (some m)) x) (.into r (.item l r')) f
  | starAs {s : Scope} {h : ExportHead} {m x : Ident} {r : Route} {f : Found} (hr : s.ModuleAt m r f) :
    Leads (.exported s h (.star (some x) m) x) r f
  | star {s : Scope} {h : ExportHead} {m x : Ident} {r r' : Route} {g f : Found} (hr : s.ModuleAt m r g)
    (hr' : Leads (.shown g.inner x) r' f) (hx : x ≠ Ident.defaultExport) :
    Leads (.exported s h (.star none m) x) (.into r r') f

/-! ## Modules and augmentations -/

theorem Tagged.items {α β : Type} {T : Route → β → Prop} {as : List α} {f : α → List β}
    (hf : ∀ (k : Nat) a, as[k]? = some a → Tagged Route.Before (fun r b => T (.item k r) b) (f a)) :
    Tagged Route.Before T (as.flatMap f) :=
  (Tagged.positions as).flatMap .item (fun _ _ => .items) (fun _ {_ _} => .item) hf

theorem Scope.tagged_files (s : Scope) :
    Tagged Source.Before s.FileAt (s.fileScope?.toList ++ s.dependencyScopes) := by
  have hfile : Tagged Source.Before (fun m c => m = .file ∧ s.fileScope? = some c) s.fileScope?.toList :=
    .toList fun c hc => ⟨rfl, hc⟩
  have hlibs : Tagged Source.Before (fun m c => ∃ k, m = .library k ∧ s.dependencyScopes[k]? = some c)
      s.dependencyScopes :=
    (Tagged.positions _).retag .library (fun _ _ => .next) fun k c hc => ⟨k, rfl, hc⟩
  refine (hfile.append hlibs ?_).mono ?_
  · rintro m c m' c' ⟨rfl, -⟩ ⟨k, rfl, -⟩
    exact .library
  · rintro m c (⟨rfl, hc⟩ | ⟨k, rfl, hc⟩)
    · exact .file hc
    · exact .library hc

theorem Scope.tagged_modulesNamed (c : Scope) (x : Ident) :
    Tagged (· < ·) (fun (k : Nat) f => ∃ h ms, c.members[k]? = some (.module h ms) ∧ h.name = x ∧
      f = ⟨.module h ms, c⟩) (c.modulesNamed x) := by
  refine (Tagged.positions c.members).filterMap _ fun k d f hd hf => ?_
  split at hf
  · split at hf
    · rename_i h ms hx
      exact ⟨h, ms, hd, hx, (Option.some.inj hf).symm⟩
    · cases hf
  · cases hf

theorem Scope.tagged_moduleScopes (s : Scope) (x : Ident) :
    Tagged Route.Before (s.ModuleAt x) (s.moduleScopes x) := by
  have hdecl : Tagged Route.Before (fun r f => (∃ m c k, s.FileAt m c ∧ r = .take m (.item k .here)) ∧
      s.ModuleAt x r f) ((s.fileScope?.toList ++ s.dependencyScopes).flatMap (·.modulesNamed x)) := by
    refine s.tagged_files.flatMap (fun m k => .take m (.item k .here)) (fun _ _ => .takes)
      (fun _ {_ _} hlt => .take (.items hlt)) fun m c hc => (c.tagged_modulesNamed x).mono ?_
    rintro k f ⟨h, ms, hk, hx, rfl⟩
    exact ⟨⟨m, c, k, hc, rfl⟩, .declared hc hk hx⟩
  have hwhole : Tagged Route.Before (fun r f => r = .take .whole .here ∧ s.ModuleAt x r f)
      ((s.root.deps.find? x).toList.flatMap fun d =>
        (s.dependencyRoot? x).toList.map fun r => ⟨d.module, r⟩) := by
    cases hlib : s.root.deps.find? x with
    | none => exact .nil
    | some lib =>
      rw [Option.toList_some, List.flatMap_singleton]
      have hroot : Tagged Route.Before (fun p r => p = .take .whole .here ∧ s.dependencyRoot? x = some r)
          (s.dependencyRoot? x).toList := .toList fun r hr => ⟨rfl, hr⟩
      refine hroot.map _ ?_
      rintro _ r ⟨rfl, hr⟩
      exact ⟨rfl, .whole hlib hr⟩
  refine (hdecl.append hwhole ?_).mono ?_
  · rintro _ f _ f' ⟨⟨m, c, k, hc, rfl⟩, -⟩ ⟨rfl, -⟩
    refine .takes ?_
    cases hc with
    | file => exact .fileWhole
    | library => exact .libraryWhole
  · rintro r f (⟨-, h⟩ | ⟨-, h⟩)
    · exact h
    · exact h

theorem Scope.tagged_augmentations (s : Scope) : Tagged Route.Before s.AugmentationAt s.augmentations := by
  unfold augmentations
  cases hc : s.fileScope? with
  | none => exact .nil
  | some c =>
    rw [Option.toList_some, List.flatMap_singleton]
    refine .items fun k d hk => ?_
    split
    · exact .single (r := .here) (.file hc hk)
    · rename_i h ms
      refine Tagged.retag (R := fun l f => s.AugmentationAt (.item k (.item l .here)) f)
        ((Tagged.positions ms).filterMap _ fun l d f hl hf => ?_) (fun l => .item l .here)
        (fun _ _ => .items) fun _ _ h => h
      split at hf
      · cases hf
        exact .module hc hk hl
      · cases hf
    · exact .nil

/-! ## Searches -/

/-- What the bindings of a list have to do with routes, if `goal x` is the goal of those of the name `x`. -/
abbrev Binds (goal : Ident → Goal) (r : Route) (b : Binding) : Prop := Leads (goal b.name) r b.found

/-- What answers a question about names, imports and exports is in the order of routes. -/
def routeGiven : (q : Question) → q.Answer → Prop
  | .name _ s q, fs => Tagged Route.Before (Leads (.name s q)) fs
  | .imported s i, bs => Tagged Route.Before (Binds (.imported s i)) bs
  | .exported s h e, bs => Tagged Route.Before (Binds (.exported s h e)) bs
  | _, _ => True

/-- What the search finds is in the order of routes. -/
abbrev Routed {α : Type} (R : Route → α → Prop) (p : Search (List α)) : Prop :=
  p.Ensures (fun _ => True) routeGiven (Tagged Route.Before R)

section
variable {α β : Type} {R : Route → α → Prop} {T : Route → β → Prop} {as : List α}

theorem Routed.items {f : α → Search (List β)}
    (hf : ∀ (k : Nat) a, as[k]? = some a → Routed (fun r b => T (.item k r) b) (f a)) :
    Routed T (concatMapM f as) :=
  (Tagged.positions as).concatMapM .item (fun _ _ => .items) (fun _ {_ _} => .item) hf

theorem Routed.into (h : Tagged Route.Before R as) {f : α → Search (List β)}
    (hf : ∀ r a, R r a → Routed (fun r' b => T (.into r r') b) (f a)) : Routed T (concatMapM f as) :=
  h.concatMapM .into (fun _ _ => .first) (fun _ {_ _} => .second) hf

theorem Routed.look (place : Place) {p : Search (List α)}
    (h : Routed (fun r a => R (.look place r) a) p) : Routed R p :=
  h.mono (fun _ h => h) fun _ has => has.retag (.look place) (fun _ _ => .look) fun _ _ h => h

end

section
variable {goal goal' : Ident → Goal} {bs : List Binding} {x y : Ident} {g : Route → Route}

theorem Tagged.bindingsOf (h : Tagged Route.Before (Binds goal) bs) (x : Ident) :
    Tagged Route.Before (Leads (goal x)) (bindingsOf x bs) := by
  refine (h.filter _).map _ ?_
  rintro r b ⟨hr, hx⟩
  rwa [← eq_of_beq hx]

theorem Tagged.bindAll {R : Route → Found → Prop} {fs : List Found} (h : Tagged Route.Before R fs)
    (hR : ∀ r f, R r f → Leads (goal x) (g r) f) :
    Tagged Route.Before (fun r b => Binds goal (g r) b) (bindAll x fs) :=
  h.map _ hR

theorem Tagged.rebind (h : Tagged Route.Before (Binds goal') bs)
    (hR : ∀ r f, Leads (goal' x) r f → Leads (goal y) (g r) f) :
    Tagged Route.Before (fun r b => Binds goal (g r) b) (rebind x y bs) :=
  (h.bindingsOf x).bindAll hR

end

/-! ## Containers -/

mutual

theorem routed_findIn (x : Ident) (s : Scope) (d : Decl) (k : Nat) (hk : s.members[k]? = some d) :
    Routed (fun r f => Leads (.member s x) (.item k r) f) (findIn x s d) := by
  cases d with
  | global h ms =>
    rw [findIn]
    refine (routed_findInList x (s.enter (.decl (.global h ms))) ms 0 fun l => ?_).mono (fun _ h => h) ?_
    · rw [Nat.zero_add]
      rfl
    · exact fun fs hfs => hfs.mono fun r f hr => .block hk hr.2
  | imports i =>
    rw [findIn]
    refine .bind (.about trivial fun _ h => h) fun bs hbs => ?_
    exact (hbs.bindingsOf x).mono fun r f hr => .bound hk hr
  | _ =>
    rw [findIn_eq x s (by intro _ _ h; cases h) (by intro _ h; cases h)]
    show Tagged _ _ _
    split
    · rename_i hx
      exact .single (r := .here) (.declared hk hx)
    · exact .nil

/-- The declarations of a list that stands in the container from position `k` on. -/
theorem routed_findInList (x : Ident) (s : Scope) (ds : List Decl) (k : Nat)
    (hds : ∀ l : Nat, s.members[k + l]? = ds[l]?) :
    Routed (fun r f => (∃ l r', r = .item (k + l) r') ∧ Leads (.member s x) r f) (findInList x s ds) := by
  match ds with
  | [] => exact Tagged.nil
  | d :: ds =>
    refine (routed_findIn x s d k (hds 0)).bind fun fs hfs => ?_
    have hrest : ∀ l : Nat, s.members[k + 1 + l]? = ds[l]? := by
      intro l
      rw [Nat.add_assoc, Nat.add_comm 1 l]
      exact hds (l + 1)
    refine (routed_findInList x s ds (k + 1) hrest).bind fun fs' hfs' => ?_
    have hfirst : Tagged Route.Before (fun r f => (∃ r', r = .item k r') ∧ Leads (.member s x) r f) fs :=
      hfs.retag (Route.item k) (fun _ _ => .item) fun r f hr => ⟨⟨r, rfl⟩, hr⟩
    refine (hfirst.append hfs' ?_).mono ?_
    · rintro _ f _ f' ⟨⟨r, rfl⟩, -⟩ ⟨⟨l, r', rfl⟩, -⟩
      exact .items (by omega)
    · rintro r f (⟨⟨r', rfl⟩, hr⟩ | ⟨⟨l, r', rfl⟩, hr⟩)
      · exact ⟨⟨0, r', rfl⟩, hr⟩
      · exact ⟨⟨1 + l, r', by rw [Nat.add_assoc]⟩, hr⟩

end

theorem routed_findMember (x : Ident) (s : Scope) : Routed (Leads (.member s x)) (findMember s x) :=
  (routed_findInList x s s.members 0 fun l => by rw [Nat.zero_add]).mono (fun _ h => h)
    fun _ hfs => hfs.mono fun _ _ h => h.2

theorem Leads.shown_item {s : Scope} {x : Ident} {r : Route} {f : Found} (h : Leads (.shown s x) r f) :
    ∃ k r', r = .item k r' := by
  cases h with
  | own hk hx | exported hk h => exact ⟨_, _, rfl⟩

theorem exportedFrom_eq (s : Scope) {d : Decl} (hd : ∀ h e, d ≠ .exports h e) :
    exportedFrom s d = .done (d.ownName?.map fun x => ⟨x, ⟨d, s⟩⟩).toList := by
  cases d with
  | exports h e => exact absurd rfl (hd h e)
  | _ => rfl

theorem routed_exportedBy (s : Scope) : Routed (Binds (.shown s)) (exportedBy s) := by
  refine .items fun k d hk => ?_
  by_cases hd : ∃ h e, d = .exports h e
  · obtain ⟨h, e, rfl⟩ := hd
    refine .about (q := .exported s h e) trivial fun bs hbs => ?_
    exact Tagged.mono hbs fun r b hr => .exported hk hr
  · rw [exportedFrom_eq s fun h e heq => hd ⟨h, e, heq⟩]
    refine Tagged.toList (r := .here) fun b hb => ?_
    obtain ⟨x, hx, rfl⟩ := Option.map_eq_some_iff.1 hb
    exact .own hk hx

/-! ## Names -/

/-- The further parts of a name, from declarations whose tags are put before the routes by `g`. -/
theorem routed_resolveTail {ρ : Type} {D : ρ → ρ → Prop} {R : ρ → Found → Prop} {T : Route → Found → Prop}
    (picker : Picker) (xs : List Ident) {fs : List Found} (hfs : Tagged D R fs) (g : ρ → Route → Route)
    (hD : ∀ {r r'} t t', D r r' → (g r t).Before (g r' t'))
    (hg : ∀ r {t t'}, t.Before t' → (g r t).Before (g r t'))
    (hT : ∀ r f r' f', R r f → Leads (.tail f xs) r' f' → T (g r r') f') :
    Routed T (resolveTail picker xs fs) := by
  induction xs generalizing ρ T fs with
  | nil =>
    show Tagged _ _ _
    exact (hfs.filter _).retag (fun r => g r .here) (fun _ _ => hD _ _)
      fun r f hr => hT r f .here f hr.1 .last
  | cons x xs ih =>
    refine hfs.concatMapM g hD hg fun r f hr => ?_
    split
    · rename_i e he
      show Tagged _ _ _
      split
      · rename_i hlast
        obtain rfl : xs = [] := List.isEmpty_iff.1 (Bool.and_eq_true _ _ ▸ hlast).1
        exact .single (r := .here) (hT r f .here f hr (.enum he))
      · exact .nil
    · refine (routed_exportedBy f.inner).bind fun bs hbs => ?_
      refine ih (hbs.bindingsOf x) .into (fun _ _ => .first) (fun _ {_ _} => .second) ?_
      exact fun r₁ g r₂ f' hr₁ hr₂ => hT r f (.into r₁ r₂) f' hr (.next hr₁ hr₂)

theorem routed_lookupInside {T : Route → Found → Prop} (picker : Picker) (x : Ident) (xs : List Ident)
    (c : Scope) (hT : ∀ r g r' f, Leads (.member c x) r g → Leads (.tail g xs) r' f → T (.into r r') f) :
    Routed T (lookupInside picker x xs c) :=
  (routed_findMember x c).bind fun _ hfs =>
    routed_resolveTail picker xs hfs .into (fun _ _ => .first) (fun _ {_ _} => .second) hT

theorem routed_lookupThrough (picker : Picker) {s : Scope} {x : Ident} {xs : List Ident}
    (hs : s.isSettled (x :: xs) = false) :
    Routed (Leads (.name s (x :: xs))) (lookupThrough picker s x xs) := by
  refine .orElse (.firstNonempty .nil fun c hc => ?_) (.orElse ?_ (.orElse ?_ ?_))
  · obtain ⟨k, hk⟩ := List.getElem?_of_mem (List.mem_filter.1 hc).1
    refine Routed.look (.around k) (routed_lookupInside picker x xs c ?_)
    exact fun r g r' f hr hr' => .around hs hk hr hr'
  · refine Routed.look .modules (.into (s.tagged_moduleScopes x) fun r f hr => ?_)
    have hf : Tagged (fun (_ _ : Unit) => False) (fun _ f' => f' = f) [f] := .single (r := ()) rfl
    refine routed_resolveTail picker xs hf (fun _ r' => r') (fun _ _ h => h.elim) (fun _ {_ _} h => h) ?_
    rintro - f' r' f'' rfl hr'
    exact .module hs hr hr'
  · refine Routed.look .augmentations (.into s.tagged_augmentations fun r f hr => ?_)
    exact routed_lookupInside picker x xs f.inner fun r₁ g r₂ f' hr₁ hr₂ => .augmented hs hr hr₁ hr₂
  · refine Routed.look .libraries (.items fun k c hk => ?_)
    exact routed_lookupInside picker x xs c fun r g r' f hr hr' => .library hs hk hr hr'

theorem routed_nameSearch (picker : Picker) (s : Scope) (q : QIdent) :
    Routed (Leads (.name s q)) (nameSearch picker s q) := by
  cases q with
  | nil => exact Tagged.nil
  | cons x xs =>
    rw [nameSearch]
    split
    · exact Tagged.nil
    · rename_i hs
      exact routed_lookupThrough picker (Bool.not_eq_true _ ▸ hs)

/-! ## Imports and exports -/

section
variable {s : Scope} {i : ImportDecl}

theorem routed_importForms {m : Ident} (hm : i.source.module? = some m)
    {plain : Ident → Search (List Binding)}
    (hplain : ∀ (k : Nat) x, i.imported[k]? = some (.name x) →
      Routed (fun r b => Binds (.imported s i) (.item k r) b) (plain x)) :
    Routed (Binds (.imported s i)) (importForms plain (s.moduleScopes m) i.imported) := by
  refine .items fun k form hk => ?_
  split
  · exact hplain k _ hk
  · exact (s.tagged_moduleScopes m).bindAll fun r f hr => .importedModule (.star hm hk) hr
  · exact Tagged.nil
  · refine .into (s.tagged_moduleScopes m) fun r f hr => ?_
    refine (routed_exportedBy f.inner).bind fun bs hbs => ?_
    refine Tagged.items fun l e hl => ?_
    exact hbs.rebind fun r' f' hr' => .importedFrom (.listed hm hk hl rfl) hr hr'

theorem routed_importSearch (s : Scope) (i : ImportDecl) :
    Routed (Binds (.imported s i)) (importSearch s i) := by
  unfold importSearch
  split
  · rename_i q hq
    refine .items fun k form hk => ?_
    split
    · refine .bind (.about (q := .name .all s q) trivial fun _ h => h) fun fs hfs => ?_
      exact Tagged.bindAll hfs fun r f hr => .importedName hq hk hr
    · exact Tagged.nil
  · rename_i m hm
    refine routed_importForms (congrArg Importee.module? hm) fun k x hk => ?_
    exact (s.tagged_moduleScopes m).bindAll fun r f hr => .importedModule (.required hm hk) hr
  · rename_i m hm
    refine routed_importForms (congrArg Importee.module? hm) fun k x hk => ?_
    refine (s.tagged_moduleScopes m).concatMapM (fun r r' => .into r (.item 0 r')) (fun _ _ => .first)
      (fun _ {_ _} h => .second (.item h)) fun r f hr => ?_
    refine (routed_exportedBy f.inner).bind fun bs hbs => ?_
    exact hbs.rebind fun r' f' hr' => .importedFrom (.default hm hk) hr hr'

end

theorem routed_exportSearch (s : Scope) (h : ExportHead) (e : Exportee) :
    Routed (Binds (.exported s h e)) (exportSearch s h e) := by
  unfold exportSearch
  split
  · refine Tagged.toList (r := .here) fun b hb => ?_
    obtain ⟨x, hx, rfl⟩ := Option.map_eq_some_iff.1 hb
    exact .inline hx
  · refine .items fun k p hk => ?_
    refine .bind (.about (q := .name .all s p.1) trivial fun _ h => h) fun fs hfs => ?_
    split
    · rename_i hkind
      refine Routed.into hfs fun r f hr => ?_
      refine (routed_exportedBy f.inner).bind fun bs hbs => ?_
      have hself : Tagged Route.Before (fun r' b => r' = .here ∧ b = ⟨Ident.defaultExport, f⟩)
          [(⟨Ident.defaultExport, f⟩ : Binding)] := .single (r := .here) ⟨rfl, rfl⟩
      refine (hbs.append hself ?_).mono ?_
      · rintro r' b _ _ hr' ⟨rfl, rfl⟩
        obtain ⟨k, r'', rfl⟩ := hr'.shown_item
        exact .inside
      · rintro r' b (hr' | ⟨rfl, rfl⟩)
        · exact .opened hk hkind hr hr'
        · exact .assigned hk hkind hr
    · rename_i hkind
      exact Tagged.bindAll hfs fun r f hr => .listed hk (by rw [hkind]; rfl) hr
    · rename_i hkind
      split
      · rename_i x hx
        exact Tagged.bindAll hfs fun r f hr => .listed hk (by rw [hkind]; exact hx) hr
      · exact Tagged.nil
  · rename_i names m
    refine .into (s.tagged_moduleScopes m) fun r f hr => ?_
    refine (routed_exportedBy f.inner).bind fun bs hbs => ?_
    refine Tagged.items fun l p hl => ?_
    obtain ⟨q, y⟩ := p
    dsimp only
    split
    · rename_i z hz
      exact hbs.rebind fun r' f' hr' => .listedFrom hl hz rfl hr hr'
    · exact .nil
  · rename_i x m
    exact (s.tagged_moduleScopes m).bindAll fun r f hr => .starAs hr
  · rename_i m
    refine .into (s.tagged_moduleScopes m) fun r f hr => ?_
    refine (routed_exportedBy f.inner).bind fun bs hbs => ?_
    refine (hbs.filter _).mono ?_
    rintro r' b ⟨hr', hx⟩
    exact .star hr hr' (by simpa using hx)

/-- **What is found is in the order of routes**, whatever is cut or remembered. -/
def routeRealm : Realm where
  asked _ := True
  given := routeGiven
  search q _ := by
    cases q with
    | name picker s q => exact routed_nameSearch picker s q
    | imported s i => exact routed_importSearch s i
    | exported s h e => exact routed_exportSearch s h e
    | _ => exact .any _
  unanswered q _ := by
    cases q with
    | name picker s q => exact Tagged.nil
    | imported s i => exact Tagged.nil
    | exported s h e => exact Tagged.nil
    | _ => exact True.intro

end Ambient
