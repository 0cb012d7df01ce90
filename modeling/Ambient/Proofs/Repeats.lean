import Ambient.Proofs.Overriding
import Ambient.Proofs.Routes
import Ambient.Proofs.Stable

/-!
# Declarations that are found again

A lookup does not compare what it finds, so a declaration to which several routes lead is found several times,
and then its members are those of its name several times. Nothing else repeats a declaration
(`lookup_once_for_each_route`). Modules that export the same module are enough for it
(`lookup_repeats_declarations`).
-/

namespace Ambient

/-! ## Lookups -/

/-- No two routes of which one comes before the other lead from the name to the same declaration. -/
def Scope.OneRouteEach (s : Scope) (q : QIdent) : Prop :=
  ∀ r r' f f', Leads (.name s q) r f → Leads (.name s q) r' f' → r.Before r' → f.decl.id ≠ f'.decl.id

variable {q : QIdent} {D : Realm} {σ : Session}

theorem Query.In.lookup_routes {s : Scope} {picker : Picker} (hQ : (Query.lookup s picker q).In D)
    (T : Trail) (hσ : σ.Faithful D) :
    ∃ fs σ', (s.lookupWith picker q T).run σ = .ok (fs, σ') ∧
      Tagged Route.Before (Leads (.name s q)) fs := by
  obtain ⟨⟨fs, σ'⟩, hrun, -⟩ := (Query.ends_of_faithful hQ T hσ).answer
  change (answerWithin (s.searchBound 1) T (.name picker s q)).run σ = .ok (fs, σ') at hrun
  have hask : (D.inter routeRealm).asked (.name picker s q) := ⟨hQ.1, trivial⟩
  obtain ⟨⟨-, hrts⟩, -⟩ := answerWithin_after _ _ T _ σ fs σ' hask (hσ.inter _) hrun
  exact ⟨fs, σ', hrun, hrts⟩

/-- What the declaration contributes to the members of its name is `c`, in some session. -/
def Realm.Contributes (D : Realm) (f : Found) (c : Contribution) : Prop :=
  ∃ n σ σ', D.Runs n [f.pair] (contributionOf f.inner f.decl) σ c σ'

theorem Realm.Runs.contributes {n : Nat} {σ' : Session} {fs : List Found} {cs : List Contribution}
    (h : D.Runs (n + 1) [] (concatMapM (fun f => Search.about (.contribution f)) fs) σ cs σ') :
    List.Forall₂ D.Contributes fs cs := by
  induction fs generalizing σ cs with
  | nil =>
    obtain ⟨rfl, rfl⟩ := h.eq_of_pure
    exact .nil
  | cons f fs ih =>
    obtain ⟨cs₁, σ₁, hf, h⟩ := h.bind
    obtain ⟨cs₂, σ₂, hfs, h⟩ := h.bind
    obtain ⟨rfl, rfl⟩ := h.eq_of_pure
    have hsrch := hf.search_of_about (by rintro ⟨p, -, hp⟩; cases hp) rfl
    obtain ⟨c, σ₃, hc, hdone⟩ := hsrch.bind
    obtain ⟨rfl, rfl⟩ := hdone.eq_of_pure
    exact .cons ⟨n, σ, σ₁, hc⟩ (ih hfs)

theorem nil_of_isSettled {s : Scope} (hs : s.isSettled q = true) {picker : Picker} {T : Trail}
    {σ' : Session} {fs : List Found} (h : (s.lookupWith picker q T).run σ = .ok (fs, σ')) : fs = [] := by
  cases fs with
  | nil => rfl
  | cons f fs => cases hs.symm.trans (isSettled_of_found h)

theorem membersSearch_of_settled {s : Scope} (h : (QIdent.isPrimitive q || s.isAbstract q) = true) :
    membersSearch s q = .done none := by
  rw [membersSearch, if_pos h]
  rfl

theorem Query.In.members_joined {s : Scope} (hM : (Query.members s q).In D)
    (hQ : (Query.lookup s .types q).In D) (hσ : σ.Faithful D) :
    ∃ fs σ₁ cs σ₂, (s.lookupType q []).run σ = .ok (fs, σ₁) ∧ List.Forall₂ D.Contributes fs cs ∧
      (s.membersOf q []).run σ = .ok (joinContributions cs, σ₂) := by
  cases hplain : (QIdent.isPrimitive q || s.isAbstract q) with
  | false =>
    obtain ⟨fs, σ₁, cs, σ₂, hlook, hcs, hmems⟩ :=
      Realm.members_of_types (T := []) hM hσ hplain (Nat.le_refl _)
    exact ⟨fs, σ₁, cs, σ₂, hlook, hcs.contributes, hmems⟩
  | true =>
    have hs : s.isSettled q = true := by
      rw [Scope.isSettled, Bool.or_assoc, hplain, Bool.or_true]
    obtain ⟨fs, σ₁, hlook, -⟩ := hQ.lookup_routes [] hσ
    obtain rfl := nil_of_isSettled hs hlook
    obtain ⟨⟨ms, σ₂⟩, hrun, hbound⟩ := (Query.ends_of_faithful hM [] hσ).answer
    have hmems : D.Runs (s.searchBound 1 + 1) [] (Search.about (.members s q)) σ ms σ₂ :=
      ⟨hM, hσ, hbound _ (Nat.le_succ _)⟩
    have hsrch := hmems.search_of_about (by rintro ⟨p, hp, -⟩; cases hp) rfl
    rw [Question.search, membersSearch_of_settled hplain] at hsrch
    obtain ⟨rfl, rfl⟩ := hsrch.eq_of_done
    exact ⟨[], σ₁, [], _, hlook, .nil, hrun⟩

/-- **A lookup finds a declaration at most once for each route that leads to it**, in the order of the routes,
for any picker and on any trail. So what it finds are different declarations if no two routes lead to the same.
The members of a name are joined from what the types that a lookup finds contribute, each once. -/
theorem lookup_once_for_each_route {D : Realm} {s : Scope} {q : QIdent}
    (hQ : ∀ picker, (Query.lookup s picker q).In D) (hM : (Query.members s q).In D) {σ : Session}
    (hσ : σ.Faithful D) :
    (∀ picker T, ∃ (found : List (Route × Found)) (σ' : Session),
      (s.lookupWith picker q T).run σ = .ok (found.map (·.2), σ') ∧
      (∀ p ∈ found, Leads (.name s q) p.1 p.2) ∧ (found.map (·.1)).Pairwise Route.Before ∧
      (found.map (·.1)).Nodup ∧ (s.OneRouteEach q → (found.map (·.2.decl.id)).Nodup)) ∧
    ∃ fs σ₁ cs σ₂, (s.lookupType q []).run σ = .ok (fs, σ₁) ∧ List.Forall₂ D.Contributes fs cs ∧
      (s.membersOf q []).run σ = .ok (joinContributions cs, σ₂) := by
  refine ⟨fun picker T => ?_, hM.members_joined (hQ .types) hσ⟩
  obtain ⟨_, σ', hrun, found, rfl, hbefore, hleads⟩ := (hQ picker).lookup_routes T hσ
  refine ⟨found, σ', hrun, hleads, List.pairwise_map.2 hbefore, ?_, fun hone => ?_⟩
  · refine List.pairwise_map.2 (hbefore.imp fun {p p'} h heq => ?_)
    exact Route.Before.irrefl p.1 (heq ▸ h)
  · refine List.pairwise_map.2 (hbefore.imp_of_mem fun {p p'} hp hp' h => ?_)
    exact hone p.1 p'.1 p.2 p'.2 (hleads p hp) (hleads p' hp') h

/-! ## Modules that several exports lead to -/

/-- The module `c` with two declarations of the interface `I`, `a` and `b`, which both export all of `c`, and
`m`, which exports all of `a` and `b`. The file has `import { I } from` one of them. -/
def barrel (source : Ident) : Library where
  name := "lib"
  deps := []
  file := File.ofMembers "lib"
    [.module ⟨{}, true, "c", .noPath, .zero⟩
       [.ofInterface "I" [.ofType "x" .number], .ofInterface "I" [.ofType "y" .string]],
     .module ⟨{}, true, "a", .noPath, .zero⟩ [.exports ⟨{}, false, .named⟩ (.star none "c")],
     .module ⟨{}, true, "b", .noPath, .zero⟩ [.exports ⟨{}, false, .named⟩ (.star none "c")],
     .module ⟨{}, true, "m", .noPath, .zero⟩
       [.exports ⟨{}, false, .named⟩ (.star none "a"), .exports ⟨{}, false, .named⟩ (.star none "b")],
     .imports ⟨0, false, [.destructured [("I", none)]], .module source⟩]

def barrelScope (source : Ident) : Scope :=
  (Scope.ofRoot ((barrel source).root false)).enter (.file (barrel source).numbered)

theorem result_of_ok {α β : Type} {x : Except Failure (α × Session)} {a : α} {f : α → β} {b : β}
    (h : x = .ok (a, σ)) (hb : x.toOption.map (fun e => f e.1) = some b) : f a = b := by
  rw [h] at hb
  exact Option.some.inj hb

theorem Scope.ModuleAt.of_alone {s c : Scope} {x : Ident} {r : Route} {f : Found} (h : s.ModuleAt x r f)
    (hdeps : s.root.deps = .empty) (hc : s.fileScope? = some c) :
    ∃ k hd ms, r = .take .file (.item k .here) ∧ c.members[k]? = some (.module hd ms) ∧ hd.name = x ∧
      f = ⟨.module hd ms, c⟩ := by
  cases h with
  | whole hlib _ =>
    rw [hdeps] at hlib
    cases hlib
  | @declared p c' k hd ms hfile hk hx =>
    cases hfile with
    | file hc' =>
      cases hc.symm.trans hc'
      exact ⟨k, hd, ms, rfl, hk, hx, rfl⟩
    | library hl =>
      rw [dependencyScopes, hdeps] at hl
      cases hl

section
variable {s : Scope} {r r' : Route} {g f : Found}

def BarrelAt (k : Nat) (f : Found) : Prop := k = 0 ∧ f.decl.id = 3 ∨ k = 1 ∧ f.decl.id = 6

theorem barrel_from_c (hdeps : s.root.deps = .empty) (hs : s.fileScope? = some (barrelScope "a"))
    (hr : s.ModuleAt "c" r g) (hr' : Leads (.shown g.inner "I") r' f) :
    r = .take .file (.item 0 .here) ∧ ∃ k, r' = .item k .here ∧ BarrelAt k f := by
  obtain ⟨k, hd, ms, rfl, hk, hx, rfl⟩ := hr.of_alone hdeps hs
  rcases k with _ | _ | _ | _ | _ | k <;> cases hk <;> try exact absurd hx (by decide)
  refine ⟨rfl, ?_⟩
  cases hr' with
  | @own _ k d _ hk _ =>
    rcases k with _ | _ | k <;> cases hk
    · exact ⟨0, rfl, .inl ⟨rfl, by decide +kernel⟩⟩
    · exact ⟨1, rfl, .inr ⟨rfl, by decide +kernel⟩⟩
  | @exported _ k h e _ r _ hk _ => rcases k with _ | _ | k <;> cases hk

theorem barrel_from_a (hr : (barrelScope "a").ModuleAt "a" r g) (hr' : Leads (.shown g.inner "I") r' f) :
    r = .take .file (.item 1 .here) ∧
      ∃ k, r' = .item 0 (.into (.take .file (.item 0 .here)) (.item k .here)) ∧ BarrelAt k f := by
  obtain ⟨k, hd, ms, rfl, hk, hx, rfl⟩ := hr.of_alone rfl rfl
  rcases k with _ | _ | _ | _ | _ | k <;> cases hk <;> try exact absurd hx (by decide)
  refine ⟨rfl, ?_⟩
  cases hr' with
  | @own _ k d _ hk hx => rcases k with _ | k <;> cases hk; cases hx
  | @exported _ k h e _ r _ hk hr =>
    rcases k with _ | k <;> cases hk
    cases hr with
    | star hr hr' _ =>
      obtain ⟨rfl, k, rfl, hk⟩ := barrel_from_c rfl rfl hr hr'
      exact ⟨k, rfl, hk⟩

theorem barrel_imported {i : ImportDecl} (hi : (barrelScope "a").members[4]? = some (.imports i))
    (h : Leads (.imported (barrelScope "a") i "I") r f) :
    ∃ k, r = .item 0 (.into (.take .file (.item 1 .here))
      (.item 0 (.item 0 (.into (.take .file (.item 0 .here)) (.item k .here))))) ∧ BarrelAt k f := by
  cases hi
  cases h with
  | importedName hi => cases hi
  | @importedModule _ _ k m _ _ _ hi =>
    cases hi with
    | required hm => cases hm
    | star hm hk => rcases k with _ | k <;> cases hk
  | @importedFrom _ _ k l m y _ r r' g _ hi hr hr' =>
    cases hi with
    | default _ hk => rcases k with _ | k <;> cases hk
    | listed hm hk hl =>
      rcases k with _ | k <;> cases hk
      rcases l with _ | l <;> cases hl
      cases hm
      obtain ⟨rfl, k, rfl, hk⟩ := barrel_from_a hr hr'
      exact ⟨k, rfl, hk⟩

theorem barrel_member (h : Leads (.member (barrelScope "a") "I") r f) :
    ∃ r', r = .item 4 r' ∧ ∃ i, (barrelScope "a").members[4]? = some (.imports i) ∧
      Leads (.imported (barrelScope "a") i "I") r' f := by
  cases h with
  | @declared _ k d _ hk hx =>
    rcases k with _ | _ | _ | _ | _ | k <;> cases hk <;> cases hx
  | @block _ k h ms _ r _ hk _ => rcases k with _ | _ | _ | _ | _ | k <;> cases hk
  | @bound _ k i _ r _ hk hr =>
    rcases k with _ | _ | _ | _ | _ | k <;> cases hk
    exact ⟨r, rfl, _, rfl, hr⟩

theorem barrel_name (h : Leads (.name (barrelScope "a") ["I"]) r f) :
    ∃ r', r = .look (.around 0) (.into r' .here) ∧ Leads (.member (barrelScope "a") "I") r' f := by
  cases h with
  | @around _ c k _ _ r r' g _ hs hc hr hr' =>
    cases hr'
    rcases k with _ | _ | k <;> cases hc
    · exact ⟨r, rfl, hr⟩
    · -- Nothing is declared around the file.
      cases hr with
      | declared hk => cases hk
      | block hk => cases hk
      | bound hk => cases hk
  | module _ hr _ =>
    obtain ⟨k, hd, ms, -, hk, hx, -⟩ := hr.of_alone rfl rfl
    rcases k with _ | _ | _ | _ | _ | k <;> cases hk <;> exact absurd hx (by decide)
  | augmented _ hr _ _ =>
    cases hr with
    | @file c k h ms hc hk =>
      cases hc
      rcases k with _ | _ | _ | _ | _ | k <;> cases hk
    | @module c k l h h' ms ms' hc hk hl =>
      cases hc
      rcases k with _ | _ | _ | _ | _ | k <;> cases hk <;> rcases l with _ | _ | l <;> cases hl
  | library _ hc _ _ => cases hc

theorem barrel_routes (h : Leads (.name (barrelScope "a") ["I"]) r f) :
    ∃ k, r = .look (.around 0) (.into (.item 4 (.item 0 (.into (.take .file (.item 1 .here))
      (.item 0 (.item 0 (.into (.take .file (.item 0 .here)) (.item k .here))))))) .here) ∧
      BarrelAt k f := by
  obtain ⟨r₁, rfl, hr₁⟩ := barrel_name h
  obtain ⟨r₂, rfl, i, hi, hr₂⟩ := barrel_member hr₁
  obtain ⟨k, rfl, hk⟩ := barrel_imported hi hr₂
  exact ⟨k, rfl, hk⟩

end

theorem barrel_oneRouteEach : (barrelScope "a").OneRouteEach ["I"] := by
  intro r r' f f' hr hr' hbef hid
  obtain ⟨k, rfl, hk⟩ := barrel_routes hr
  obtain ⟨k', rfl, hk'⟩ := barrel_routes hr'
  rcases hk with ⟨rfl, hf⟩ | ⟨rfl, hf⟩ <;> rcases hk' with ⟨rfl, hf'⟩ | ⟨rfl, hf'⟩
  · exact Route.Before.irrefl _ hbef
  · rw [hf, hf'] at hid
    cases hid
  · rw [hf, hf'] at hid
    cases hid
  · exact Route.Before.irrefl _ hbef

/-- Taken from `a`, the two declarations of `I` are found once each and give `x` and `y`. Taken from `m`, to
which two routes lead, they are found twice each. -/
theorem lookup_once_for_each_route_barrel :
    (barrelScope "a").OneRouteEach ["I"] ∧
    (∃ fs σ, ((barrelScope "a").lookupWith .types ["I"] []).run {} = .ok (fs, σ) ∧
      fs.map (·.decl.id) = [3, 6] ∧ (fs.map (·.decl.id)).Nodup) ∧
    ∃ fs cs σ₁ σ₂, ((barrelScope "m").lookupType ["I"] []).run {} = .ok (fs, σ₁) ∧
      fs.map (·.decl.id) = [3, 6, 3, 6] ∧ cs.length = 4 ∧
      ((barrelScope "m").membersOf ["I"] []).run {} = .ok (joinContributions cs, σ₂) ∧
      (joinContributions cs).map (·.map (·.name?)) = some [some "x", some "y", some "x", some "y"] := by
  have hσ : ∀ D : Realm, Session.Faithful D {} := fun D => Session.faithful_of_none D rfl
  obtain ⟨hlookup, -⟩ :=
    lookup_once_for_each_route (D := (Query.members (barrelScope "a") ["I"]).territory.realm)
      (fun picker => (Query.lookup (barrelScope "a") picker ["I"]).in_territory)
      (Query.members (barrelScope "a") ["I"]).in_territory (hσ _)
  obtain ⟨-, fs, σ₁, cs, σ₂, hfs, hcs, hmembers⟩ :=
    lookup_once_for_each_route (D := (Query.members (barrelScope "m") ["I"]).territory.realm)
      (fun picker => (Query.lookup (barrelScope "m") picker ["I"]).in_territory)
      (Query.members (barrelScope "m") ["I"]).in_territory (hσ _)
  have hids : fs.map (·.decl.id) = [3, 6, 3, 6] := result_of_ok hfs (by decide +kernel)
  refine ⟨barrel_oneRouteEach, ?_, fs, cs, σ₁, σ₂, hfs, hids, ?_, hmembers, ?_⟩
  · obtain ⟨found, σ, hfs, -, -, -, hdifferent⟩ := hlookup .types []
    refine ⟨found.map (·.2), σ, hfs, result_of_ok hfs (by decide +kernel), ?_⟩
    rw [List.map_map]
    exact hdifferent barrel_oneRouteEach
  · rw [← hcs.length_eq, ← List.length_map (·.decl.id), hids]
    rfl
  · refine result_of_ok (f := (·.map (·.map (·.name?)))) hmembers ?_
    decide +kernel

/-! ## Imports of different names -/

/-- Do all imports of the container bring in different names? -/
def Node.importsApart (n : Node) : Bool :=
  let imports := (n.members?.getD []).filterMap fun
    | .imports i => some i
    | _ => none
  decide (imports.Pairwise fun i i' => ∀ x ∈ i.binds, x ∉ i'.binds)

/-- In no container of the library or of those it depends on, two imports bring in the same name. -/
def Library.ImportsApart (lib : Library) : Prop :=
  ∀ f ∈ lib.file :: lib.deps.map (·.2), ∀ n, f.Contains n → n.importsApart = true

/-- It does not take two imports of one name for a declaration to be found twice. -/
theorem lookup_repeats_declarations :
    ¬ ∀ (lib : Library) (pedantic : Bool) (s : Scope) (picker : Picker) (q : QIdent), lib.ImportsApart →
      (lib.root pedantic).Enters lib.numbered s →
      ∃ fs σ, (s.lookupWith picker q []).run {} = .ok (fs, σ) ∧ (fs.map (·.decl.id)).Nodup := by
  intro h
  have hapart : (barrel "m").ImportsApart := by
    intro f hf n hn
    obtain rfl := List.mem_singleton.1 hf
    have hall : (Node.file (barrel "m").file).allTo Node.importsApart 8 = true := by decide +kernel
    exact hn.of_allTo hall
  obtain ⟨fs, σ, hfs, hdifferent⟩ := h (barrel "m") false (barrelScope "m") .types ["I"] hapart .file
  have hids : fs.map (·.decl.id) = [3, 6, 3, 6] := result_of_ok hfs (by decide +kernel)
  rw [hids] at hdifferent
  exact absurd hdifferent (by decide)

end Ambient
