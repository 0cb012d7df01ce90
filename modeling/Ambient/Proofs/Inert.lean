import Ambient.Proofs.Twin.Pipeline

/-!
# What compiling does not look at

* Texts: libraries that differ only in what authors wrote in comments, with the same markers in the same
  order, fail with the same error or give files that say the same (`compile_ignores_texts`).
* Identities: libraries that are equal but for the identities of nodes fail with the same error or give
  results that are equal but for identities, comments included. It does not matter in which way the
  steps choose identities either (`compile_ignores_identities`).

Both are cases of `compileBy_upTo`. They differ in the comments that may stand for each other: all of
them, as long as hints for names are the same, or only equal ones.
-/

namespace Ambient

theorem File.UpTo.mono {C H C' H' : Comments → Comments → Prop} {f g : File} (h : f.UpTo C H g)
    (hC : ∀ {a b}, C a b → C' a b) (hH : ∀ {a b}, H a b → H' a b) : f.UpTo C' H' g := by
  obtain ⟨L, hL, h⟩ := h
  exact ⟨L, ⟨fun hab => hC (hL.comments hab), fun hab => hH (hL.hints hab)⟩, h⟩

theorem Library.UpTo.mono {C H C' H' : Comments → Comments → Prop} {a b : Library} (h : a.UpTo C H b)
    (hC : ∀ {a b}, C a b → C' a b) (hH : ∀ {a b}, H a b → H' a b) : a.UpTo C' H' b :=
  ⟨h.name, h.file.mono hC hH, h.deps.imp fun _ _ hd => ⟨hd.fst, hd.snd.mono hC hH⟩⟩

theorem Alike.mono {ε α β : Type} {R S : α → β → Prop} {x : Except ε α} {y : Except ε β}
    (h : Alike R x y) (hRS : ∀ {a b}, R a b → S a b) : Alike S x y := by
  cases h with
  | error => exact .error
  | ok hab => exact .ok (hRS hab)

/-! ## Texts -/

/-- The comments hold the same markers in the same order. What the authors wrote may differ. -/
def Comments.SameMarkers (a b : Comments) : Prop :=
  a.markersOnly = b.markersOnly

/-- The libraries differ only in what the authors wrote in comments, and in identities. -/
def Library.SameButTexts (a b : Library) : Prop :=
  a.UpTo Comments.SameMarkers Comments.SameMarkers b

theorem Comments.nameHint?_markersOnly (cs : Comments) : cs.markersOnly.nameHint? = cs.nameHint? := by
  induction cs with
  | nil => rfl
  | cons c cs ih =>
    cases c with
    | raw text => exact ih
    | marker m =>
      cases m with
      | nameHint hint => rfl
      | _ => exact ih

theorem Comments.SameMarkers.nameHint?_eq {a b : Comments} (h : a.SameMarkers b) :
    a.nameHint? = b.nameHint? := by
  rw [← a.nameHint?_markersOnly, ← b.nameHint?_markersOnly, h]

/-- All comments may stand for each other, if they hint at the same name where names are made. -/
theorem Leeway.fair_hints (φ ψ : Labelling) :
    (Leeway.labelled φ ψ (fun _ _ => True) fun a b => a.nameHint? = b.nameHint?).Fair where
  id_zero := ⟨0, φ.zero.symm, ψ.zero.symm⟩
  id_iff := φ.label_iff ψ
  hints_nil := rfl
  hints_append {a b c d} hab hcd := by
    change Comments.nameHint? (a ++ c) = Comments.nameHint? (b ++ d)
    rw [Comments.nameHint?, Comments.nameHint?, List.findSome?_append, List.findSome?_append]
    exact congrArg₂ Option.or hab hcd
  nameHint hab := hab
  comments_of_hints _ := trivial
  comments_append _ _ := trivial
  withMarker _ _ := trivial
  markersOnly _ := trivial
  orElse _ _ := trivial
  texts := .inr fun _ _ => trivial

/-- **What authors write in comments is inert.** Two libraries that differ in nothing else fail with the
same error, or give files that say the same. The same steps run, and the same steps change the file, but
for the one that drops repeated comments. -/
theorem compile_ignores_texts (o : Options) {a b : Library} (h : a.SameButTexts b) :
    Alike (fun x y => (x.file == y.file) = true ∧ x.name = y.name ∧ x.passes = y.passes ∧
        x.changedBy.filter (· ≠ .keepFirstOverloadComment) =
          y.changedBy.filter (· ≠ .keepFirstOverloadComment))
      (compile o a) (compile o b) := by
  have hab : a.UpTo (fun _ _ => True) (fun a b => a.nameHint? = b.nameHint?) b :=
    h.mono (fun _ => trivial) fun h => h.nameHint?_eq
  have hkeep : decide (PassName.keepFirstOverloadComment ≠ .keepFirstOverloadComment) ≠ true := by decide
  rw [compile_eq_compileBy, compile_eq_compileBy]
  refine (compileBy_upTo Leeway.fair_hints (· ≠ .keepFirstOverloadComment) (absurd · hkeep) _ _ hab
    o).mono ?_
  rintro x y ⟨hname, ⟨_, _, hfile⟩, hpasses, hchanged⟩
  exact ⟨hfile.beq, hname, hpasses, hchanged⟩

/-- Two functions `f` with the given comments, and a variable whose type has a hint for its name with a
text before it. -/
def commented (first second text : String) : Library where
  name := "lib"
  deps := []
  file := File.ofMembers "lib"
    [.function ⟨{ comments := [.raw first] }, true, "f", .ofParams [] none, .zero, .noPath⟩,
     .function ⟨{ comments := [.raw second] }, true, "f", .ofParams [⟨{}, "x", none⟩] none, .zero, .noPath⟩,
     .var ⟨{}, true, true, "y", some (.object { comments := [.raw text, .marker (.nameHint "Point")] }
        [.ofType "a" .string]), none, .zero, .noPath⟩]

theorem commented_sameButTexts (a b c d e f : String) :
    (commented a b c).SameButTexts (commented d e f) := by
  let L : Leeway := ⟨Eq, Comments.SameMarkers, Comments.SameMarkers⟩
  have hsig : ∀ {ps qs : List Param}, List.Forall₂ (Param.Twin L) ps qs →
      (Signature.ofParams ps none).Twin L (.ofParams qs none) :=
    fun hps => .mk ⟨rfl, rfl⟩ .nil hps .none
  have ha : (Member.ofType "a" .string).Twin L (.ofType "a" .string) :=
    .property ⟨rfl, rfl⟩ (.some (.ref ⟨rfl, rfl⟩ .nil)) .none
  refine ⟨rfl, ⟨L, ⟨id, id⟩, ⟨rfl, rfl⟩, rfl, .cons ?_ (.cons ?_ (.cons ?_ .nil)), rfl⟩, .nil⟩
  · exact .function ⟨⟨rfl, rfl⟩, rfl, rfl, hsig .nil, rfl, rfl⟩
  · exact .function ⟨⟨rfl, rfl⟩, rfl, rfl, hsig (.cons (.mk ⟨rfl, rfl⟩ .none) .nil), rfl, rfl⟩
  · exact .var ⟨⟨rfl, rfl⟩, rfl, rfl, rfl, .some (.object ⟨rfl, rfl⟩ (.cons ha .nil)), .none, rfl, rfl⟩

/-- A second function that repeats the comment of the first loses it, and another one keeps it. The files
say the same, with the interface under the name that the hint gives. -/
theorem compile_ignores_texts_of_overloads :
    ∃ x y, compile {} (commented "reads" "reads" "a point") = .ok x ∧
      compile {} (commented "reads" "writes" "") = .ok y ∧ (x.file == y.file) = true ∧
      x.changedBy ≠ y.changedBy ∧ y.file.members.filterMap Decl.name? = ["f", "f", "y", "Point"] := by
  have hrun : ((compile {} (commented "reads" "reads" "a point")).toOption.any fun x =>
      (compile {} (commented "reads" "writes" "")).toOption.any fun y =>
        x.changedBy != y.changedBy &&
          y.file.members.filterMap Decl.name? == ["f", "f", "y", "Point"]) = true := by
    decide +kernel
  have halike := compile_ignores_texts {}
    (commented_sameButTexts "reads" "reads" "a point" "reads" "writes" "")
  generalize compile {} (commented "reads" "reads" "a point") = r at hrun halike ⊢
  generalize compile {} (commented "reads" "writes" "") = r' at hrun halike ⊢
  cases halike with
  | error => cases hrun
  | @ok x y hxy =>
    rw [Except.toOption, Except.toOption, Option.any_some, Option.any_some, Bool.and_eq_true, bne_iff_ne,
      beq_iff_eq] at hrun
    exact ⟨x, y, rfl, rfl, hxy.1, hrun.1, hrun.2⟩

/-! ## Identities -/

/-- The files are equal but for the identities of nodes. -/
def File.SameButIdentities (f g : File) : Prop := f.UpTo Eq Eq g

/-- The libraries are equal but for the identities of nodes. -/
def Library.SameButIdentities (a b : Library) : Prop := a.UpTo Eq Eq b

/-- The results are equal but for the identities of nodes. -/
structure Compiled.SameButIdentities (x y : Compiled) : Prop where
  name : x.name = y.name
  file : x.file.SameButIdentities y.file
  passes : x.passes = y.passes
  changedBy : x.changedBy = y.changedBy

theorem Leeway.fair_eq (φ ψ : Labelling) : (Leeway.labelled φ ψ Eq Eq).Fair where
  id_zero := ⟨0, φ.zero.symm, ψ.zero.symm⟩
  id_iff := φ.label_iff ψ
  hints_nil := rfl
  hints_append hab hcd := congrArg₂ _ hab hcd
  nameHint := congrArg _
  comments_of_hints hab := hab
  comments_append hab hcd := congrArg₂ _ hab hcd
  withMarker m := congrArg (Comments.withMarker · m)
  markersOnly := congrArg _
  orElse {a b c d} hab hcd := by
    obtain rfl : a = b := hab
    obtain rfl : c = d := hcd
    rfl
  texts := .inl fun _ _ => congrArg _

theorem compileBy_sameButIdentities (φ ψ : PassName → Labelling) (o : Options) {a b : Library}
    (h : a.SameButIdentities b) :
    Alike Compiled.SameButIdentities (compileBy φ o a) (compileBy ψ o b) := by
  refine (compileBy_upTo Leeway.fair_eq (fun _ => true) (fun _ _ _ _ _ => congrArg _) φ ψ h o).mono ?_
  rintro x y ⟨hname, hfile, hpass, hchg⟩
  rw [List.filter_true, List.filter_true] at hchg
  exact ⟨hname, hfile, hpass, hchg⟩

/-- **Identities do not show.** Two libraries that are equal but for the identities of nodes fail with
the same error, or give results that are equal but for identities: the same files, comments included, by
the same steps, of which the same changed it. This stays true if the steps of the two runs choose
identities in two different ways. -/
theorem compile_ignores_identities (o : Options) {a b : Library} (h : a.SameButIdentities b) :
    Alike Compiled.SameButIdentities (compile o a) (compile o b) ∧
      ∀ φ ψ : PassName → Labelling,
        Alike Compiled.SameButIdentities (compileBy φ o a) (compileBy ψ o b) := by
  refine ⟨?_, fun φ ψ => compileBy_sameButIdentities φ ψ o h⟩
  rw [compile_eq_compileBy, compile_eq_compileBy]
  exact compileBy_sameButIdentities _ _ o h

/-- An interface, a variable whose type is a literal that mentions it, and a dependency, with the given
identities. -/
def identified (i j k : NodeId) : Library where
  name := "lib"
  deps := [("dep", File.ofMembers "dep" [.exportAs ⟨k, "D"⟩])]
  file := File.ofMembers "lib"
    [.iface ⟨{ id := i }, true, "P", [], [], [], .noPath⟩,
     .var ⟨{ id := j, comments := [.raw "text"] }, true, true, "y",
        some (.object { id := k } [.ofType "a" (.ref { id := i } ["P"] [])]), none, .zero, .noPath⟩]

theorem identified_sameButIdentities (i j k i' j' k' : NodeId) :
    (identified i j k).SameButIdentities (identified i' j' k') := by
  let L : Leeway := ⟨fun _ _ => True, Eq, Eq⟩
  have hdep : (File.ofMembers "dep" [.exportAs ⟨k, "D"⟩]).SameButIdentities
      (File.ofMembers "dep" [.exportAs ⟨k', "D"⟩]) :=
    ⟨L, ⟨id, id⟩, ⟨trivial, rfl⟩, rfl, .cons (.exportAs ⟨trivial, rfl⟩) .nil, rfl⟩
  have ha : (Member.ofType "a" (.ref { id := i } ["P"] [])).Twin L
      (.ofType "a" (.ref { id := i' } ["P"] [])) :=
    .property ⟨trivial, rfl⟩ (.some (.ref ⟨trivial, rfl⟩ .nil)) .none
  have ht : (Ty.object { id := k } [.ofType "a" (.ref { id := i } ["P"] [])]).Twin L
      (.object { id := k' } [.ofType "a" (.ref { id := i' } ["P"] [])]) :=
    .object ⟨trivial, rfl⟩ (.cons ha .nil)
  refine ⟨rfl, ⟨L, ⟨id, id⟩, ⟨trivial, rfl⟩, rfl, .cons ?_ (.cons ?_ .nil), rfl⟩, .cons ⟨rfl, hdep⟩ .nil⟩
  · exact .iface ⟨⟨trivial, rfl⟩, rfl, rfl, .nil, .nil, .nil, rfl⟩
  · exact .var ⟨⟨trivial, rfl⟩, rfl, rfl, rfl, .some ht, .none, rfl, rfl⟩

/-- The even numbers. -/
def Labelling.even : Labelling :=
  ⟨(2 * ·), rfl, fun _ _ h => Nat.eq_of_mul_eq_mul_left (by decide) h⟩

/-- The literal becomes an interface next to the one it mentions, whatever the identities are. -/
theorem compile_ignores_identities_of_literals :
    ∃ x y, compileBy (fun _ => .counting) {} (identified 1 2 3) = .ok x ∧
      compileBy (fun _ => .even) {} (identified 30 10 20) = .ok y ∧ x.SameButIdentities y ∧
      y.file.members.filterMap Decl.name? = ["P", "y", "AnonA"] := by
  have hrun : ((compileBy (fun _ => .even) {} (identified 30 10 20)).toOption.any fun y =>
      y.file.members.filterMap Decl.name? == ["P", "y", "AnonA"]) = true := by
    decide +kernel
  have halike := (compile_ignores_identities {} (identified_sameButIdentities 1 2 3 30 10 20)).2
    (fun _ => .counting) fun _ => .even
  generalize compileBy (fun _ => .counting) {} (identified 1 2 3) = r at halike ⊢
  generalize compileBy (fun _ => .even) {} (identified 30 10 20) = r' at hrun halike ⊢
  cases halike with
  | error => cases hrun
  | @ok x y hxy =>
    rw [Except.toOption, Option.any_some, beq_iff_eq] at hrun
    exact ⟨x, y, rfl, rfl, hxy, hrun⟩

end Ambient
