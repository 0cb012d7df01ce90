import Ambient.Options
import Ambient.Proofs.Exchange

/-!
# Options survive their own text

A value is written without spaces and read in two passes, first into tokens (`Legible.scans`) and then into
values (`Legible.reads`). A string is read back whatever characters it has (`scanString_quoted`). So reading
options from their own text comes down to checking them (`options_survive_text`).
-/

namespace Ambient

namespace Json

/-! ## Strings -/

theorem hexUnit?_hexDigit :
    ∀ n < 0x20, hexUnit? '0' '0' (hexDigit (n / 16)) (hexDigit (n % 16)) = some n := by
  decide

theorem scanString_escape (c : Char) (cs rest : List Char) :
    scanString ⟨some cs, none⟩ (escape c ++ rest) = scanString ⟨some (c :: cs), none⟩ rest := by
  unfold escape
  split_ifs with h h h h h h h hcontrol
  iterate 7 · subst h; rfl
  · have hunit : Partial.pushUnit ⟨some cs, none⟩ c.toNat = ⟨some (c :: cs), none⟩ := by
      rw [Partial.pushUnit, if_neg (by omega), if_neg (by omega), Char.ofNat_toNat]
      rfl
    simp only [List.cons_append, List.nil_append, scanString, hexUnit?_hexDigit _ hcontrol, hunit]
  · rw [List.singleton_append, scanString, if_neg hcontrol]
    · rfl
    all_goals grind

theorem scanString_quoted (text before rest : List Char) :
    scanString ⟨some before, none⟩ (text.flatMap escape ++ '"' :: rest) =
      some (some (before.reverse ++ text), rest) := by
  induction text generalizing before with
  | nil => simp [scanString, Partial.finish]
  | cons c text ih => rw [List.flatMap_cons, List.append_assoc, scanString_escape, ih]; simp

/-! ## Tokens -/

section
variable {cs rest : List Char} {ts : List Token}

theorem scanAll_succ {n : Nat} (h : Token.scanAll n cs = some ts) : Token.scanAll (n + 1) cs = some ts := by
  induction n generalizing cs ts with
  | zero =>
    rw [Token.scanAll.eq_def] at h ⊢
    cases hcs : cs.dropWhile isSpace with
    | nil => simpa only [hcs] using h
    | cons c cs => simp [hcs] at h
  | succ n ih =>
    rw [Token.scanAll.eq_def] at h ⊢
    cases hcs : cs.dropWhile isSpace with
    | nil => simpa only [hcs] using h
    | cons c cs =>
      simp only [hcs] at h ⊢
      cases hnext : Token.next (c :: cs) with
      | none => simp [hnext] at h
      | some r =>
        rw [hnext] at h
        obtain ⟨us, hus, rfl⟩ := Option.map_eq_some_iff.1 h
        simp [ih hus]

/-- One token and the tokens of the rest. The scanner may take as many tokens as there are characters, so it
must not be left with more of them. -/
theorem scan_cons {c : Char} {t : Token} (hc : isSpace c = false)
    (hnext : Token.next (c :: cs) = some (t, rest)) (hle : rest.length ≤ cs.length)
    (hrest : Token.scan rest = some ts) : Token.scan (c :: cs) = some (t :: ts) := by
  have hmore : ∀ k, Token.scanAll (rest.length + k) rest = some ts := fun k => by
    induction k with
    | zero => exact hrest
    | succ k ih => exact scanAll_succ ih
  obtain ⟨k, hk⟩ := Nat.exists_eq_add_of_le hle
  have hcs : (c :: cs).dropWhile isSpace = c :: cs := List.dropWhile_cons_of_neg (by simp [hc])
  rw [Token.scan, List.length_cons, Token.scanAll.eq_def]
  simp only [hcs, hnext, hk, hmore, Option.map_some]

theorem scan_quote (s : String) (h : Token.scan rest = some ts) :
    Token.scan (quote s rest) = some (.str (some s.toList) :: ts) := by
  refine scan_cons rfl ?_ (by simp; omega) h
  rw [Token.next, Partial.empty, scanString_quoted]
  rfl

end

mutual

def tokens : Json → List Token
  | .null | .illFormed => [.null]
  | .bool b => [.bool b]
  | .num text => [.num text.toList]
  | .str s => [.str (some s.toList)]
  | .arr [] => [.openArr, .closeArr]
  | .arr (j :: js) => .openArr :: (j.tokens ++ tokensItems js)
  | .obj [] => [.openObj, .closeObj]
  | .obj ((k, j) :: fs) => .openObj :: .str (some k.toList) :: .colon :: (j.tokens ++ tokensFields fs)

/-- The tokens of the items after the first, and the closing bracket. -/
def tokensItems : List Json → List Token
  | [] => [.closeArr]
  | j :: js => .comma :: (j.tokens ++ tokensItems js)

/-- The tokens of the fields after the first, and the closing brace. -/
def tokensFields : List (String × Json) → List Token
  | [] => [.closeObj]
  | (k, j) :: fs => .comma :: .str (some k.toList) :: .colon :: (j.tokens ++ tokensFields fs)

end

/-- The scanner finds the tokens of the value where it is written. -/
def Scans (j : Json) : Prop :=
  ∀ {rest ts}, Token.scan rest = some ts → Token.scan (j.write rest) = some (j.tokens ++ ts)

/-- The reader finds the value where its tokens stand. -/
def Reads (j : Json) : Prop :=
  ∀ {fuel ts}, 2 * j.tokens.length ≤ fuel → readValue fuel (j.tokens ++ ts) = some (j, ts)

/-- Values that are written without loss. A number may be any text, and a string without a text is written as
`null`. -/
inductive Legible : Json → Prop
  | null : Legible .null
  | bool (b : Bool) : Legible (.bool b)
  | str (s : String) : Legible (.str s)
  | arr {js : List Json} (h : ∀ j ∈ js, Legible j) : Legible (.arr js)
  | obj {fs : List (String × Json)} (h : ∀ f ∈ fs, Legible f.2) : Legible (.obj fs)

section
variable {j : Json} {js : List Json} {k : String} {fs : List (String × Json)} {rest : List Char}
  {ts : List Token} {fuel : Nat}

theorem scan_writeItems (hjs : ∀ j ∈ js, j.Scans) (hrest : Token.scan rest = some ts) :
    Token.scan (writeItems js rest) = some (tokensItems js ++ ts) := by
  induction js with
  | nil => exact scan_cons rfl rfl (Nat.le_refl _) hrest
  | cons j js ih =>
    obtain ⟨hj, hjs⟩ := List.forall_mem_cons.1 hjs
    rw [writeItems, tokensItems, List.cons_append, List.append_assoc]
    exact scan_cons rfl rfl (Nat.le_refl _) (hj (ih hjs))

theorem scan_field (hj : j.Scans) (hrest : Token.scan rest = some ts) :
    Token.scan (quote k (':' :: j.write rest)) = some (.str (some k.toList) :: .colon :: (j.tokens ++ ts)) :=
  scan_quote k (scan_cons rfl rfl (Nat.le_refl _) (hj hrest))

theorem scan_writeFields (hfs : ∀ f ∈ fs, f.2.Scans) (hrest : Token.scan rest = some ts) :
    Token.scan (writeFields fs rest) = some (tokensFields fs ++ ts) := by
  induction fs with
  | nil => exact scan_cons rfl rfl (Nat.le_refl _) hrest
  | cons f fs ih =>
    obtain ⟨hf, hfs⟩ := List.forall_mem_cons.1 hfs
    rw [writeFields, tokensFields, List.cons_append, List.cons_append, List.cons_append, List.append_assoc]
    exact scan_cons rfl rfl (Nat.le_refl _) (scan_field hf (ih hfs))

theorem Legible.scans (h : j.Legible) : j.Scans := by
  induction h with
  | null => exact scan_cons rfl rfl (Nat.le_add_right _ 3)
  | bool b =>
    cases b with
    | true => exact scan_cons rfl rfl (Nat.le_add_right _ 3)
    | false => exact scan_cons rfl rfl (Nat.le_add_right _ 4)
  | str s => exact scan_quote s
  | @arr js _ ih =>
    intro rest ts hrest
    cases js with
    | nil => exact scan_cons rfl rfl (Nat.le_refl _) (scan_cons rfl rfl (Nat.le_refl _) hrest)
    | cons j js =>
      obtain ⟨hj, hjs⟩ := List.forall_mem_cons.1 ih
      rw [write, tokens, List.cons_append, List.append_assoc]
      exact scan_cons rfl rfl (Nat.le_refl _) (hj (scan_writeItems hjs hrest))
  | @obj fs _ ih =>
    intro rest ts hrest
    cases fs with
    | nil => exact scan_cons rfl rfl (Nat.le_refl _) (scan_cons rfl rfl (Nat.le_refl _) hrest)
    | cons f fs =>
      obtain ⟨hf, hfs⟩ := List.forall_mem_cons.1 ih
      rw [write, tokens, List.cons_append, List.cons_append, List.cons_append, List.append_assoc]
      exact scan_cons rfl rfl (Nat.le_refl _) (scan_field hf (scan_writeFields hfs hrest))

/-! ## Values -/

/-- No value starts like the end of an array. -/
theorem exists_tokens_eq_cons (j : Json) : ∃ t ts, j.tokens = t :: ts ∧ t ≠ .closeArr := by
  cases j with
  | arr js => cases js <;> exact ⟨_, _, rfl, by simp⟩
  | obj fs => cases fs <;> exact ⟨_, _, rfl, by simp⟩
  | _ => exact ⟨_, _, rfl, by simp⟩

theorem readItems_tokens (hj : j.Reads) (hjs : ∀ i ∈ js, i.Reads)
    (hfuel : 2 * (j.tokens ++ tokensItems js).length ≤ fuel) :
    readItems fuel (j.tokens ++ (tokensItems js ++ ts)) = some (j :: js, ts) := by
  induction js generalizing j fuel with
  | nil =>
    simp only [tokensItems, List.length_append, List.length_singleton] at hfuel
    obtain ⟨n, rfl⟩ : ∃ n, fuel = n + 1 := ⟨fuel - 1, by omega⟩
    rw [readItems, hj (by omega)]
    rfl
  | cons i js ih =>
    simp only [tokensItems, List.length_append, List.length_cons] at hfuel
    obtain ⟨n, rfl⟩ : ∃ n, fuel = n + 1 := ⟨fuel - 1, by omega⟩
    obtain ⟨hi, hjs⟩ := List.forall_mem_cons.1 hjs
    rw [readItems, hj (by omega)]
    simp only [tokensItems, List.cons_append, List.append_assoc]
    rw [ih hi hjs (by rw [List.length_append]; omega)]
    rfl

theorem readFields_tokens (hj : j.Reads) (hfs : ∀ f ∈ fs, f.2.Reads)
    (hfuel : 2 * (j.tokens ++ tokensFields fs).length ≤ fuel) :
    readFields fuel (.str (some k.toList) :: .colon :: (j.tokens ++ (tokensFields fs ++ ts))) =
      some (((k, j) :: fs).map fun f => (some f.1.toList, f.2), ts) := by
  induction fs generalizing k j fuel with
  | nil =>
    simp only [tokensFields, List.length_append, List.length_singleton] at hfuel
    obtain ⟨n, rfl⟩ : ∃ n, fuel = n + 1 := ⟨fuel - 1, by omega⟩
    rw [readFields, hj (by omega)]
    rfl
  | cons f fs ih =>
    simp only [tokensFields, List.length_append, List.length_cons] at hfuel
    obtain ⟨n, rfl⟩ : ∃ n, fuel = n + 1 := ⟨fuel - 1, by omega⟩
    obtain ⟨hf, hfs⟩ := List.forall_mem_cons.1 hfs
    rw [readFields, hj (by omega)]
    simp only [tokensFields, List.cons_append, List.append_assoc]
    rw [ih hf hfs (by rw [List.length_append]; omega)]
    rfl

theorem ofFields_map (fs : List (String × Json)) :
    ofFields (fs.map fun f => (some f.1.toList, f.2)) = .obj fs := by
  have hall : (fs.map fun f => (some f.1.toList, f.2)).mapM
      (fun e : Option (List Char) × Json => e.1.map fun cs => (String.ofList cs, e.2)) = some fs := by
    induction fs with
    | nil => rfl
    | cons f fs ih => rw [List.map_cons, List.mapM_cons, ih]; simp
  rw [ofFields]
  simp only [hall]

theorem Legible.reads (h : j.Legible) : j.Reads := by
  induction h <;> intro fuel ts hfuel
  all_goals
    obtain ⟨n, rfl⟩ : ∃ n, fuel = n + 1 := by
      obtain ⟨t, us, htokens, -⟩ := exists_tokens_eq_cons _
      rw [htokens, List.length_cons] at hfuel
      exact ⟨fuel - 1, by omega⟩
  case null => rfl
  case bool => rfl
  case str s => simp [tokens, readValue]
  case arr js _ ih =>
    cases js with
    | nil => rfl
    | cons j js =>
      obtain ⟨hj, hjs⟩ := List.forall_mem_cons.1 ih
      obtain ⟨t, us, htokens, ht⟩ := j.exists_tokens_eq_cons
      rw [tokens, List.length_cons] at hfuel
      rw [tokens, List.cons_append, List.append_assoc, readValue, readItems_tokens hj hjs (by omega)]
      · rfl
      · rintro us' hus
        rw [htokens] at hus
        exact ht (List.cons.inj hus).1
  case obj fs _ ih =>
    cases fs with
    | nil => rfl
    | cons f fs =>
      obtain ⟨hf, hfs⟩ := List.forall_mem_cons.1 ih
      simp only [tokens, List.length_cons] at hfuel
      rw [tokens, List.cons_append, List.cons_append, List.cons_append, List.append_assoc, readValue,
        readFields_tokens hf hfs (by omega)]
      · exact congrArg (fun o => some (o, ts)) (ofFields_map (f :: fs))
      · rintro us hus
        cases hus

theorem Legible.parse?_render (h : j.Legible) : parse? j.render = some j := by
  have hscan : Token.scan j.render.toList = some j.tokens := by
    have hwrite : Token.scan (j.write []) = some (j.tokens ++ []) := h.scans rfl
    rwa [List.append_nil, ← String.toList_ofList (l := j.write [])] at hwrite
  have hread : readValue (2 * j.tokens.length + 1) (j.tokens ++ []) = some (j, []) := h.reads (by omega)
  rw [List.append_nil] at hread
  rw [parse?, hscan, Option.bind_some, ofTokens?, hread]

theorem Legible.ofList {α : Type} {f : α → Json} (h : ∀ a, (f a).Legible) (as : List α) :
    (ofList f as).Legible :=
  .arr (List.forall_mem_map.2 fun a _ => h a)

end

end Json

/-! ## Options -/

namespace Options

open Json (list?_ofList_self)

theorem legible (o : Options) : o.toJson.Legible := by
  have hsub : ∀ sub : TypeSubstitution,
      (Json.obj [("from", .str sub.source), ("to", .str sub.target)]).Legible :=
    fun sub => .obj (by simp [Json.Legible.str])
  refine .obj ?_
  simp [Json.Legible.bool, Json.Legible.str, Json.Legible.ofList, hsub]

/-- All fields are found under the names they are written with, so none is read as missing. -/
theorem ofJson?_toJson (o : Options) : ofJson? o.toJson = some o := by
  have hfields : ∀ p e a c t d : Json, knownFields? fieldNames [("pedantic", p), ("enableScopeCache", e),
      ("anonymousInterfacePrefix", a), ("classBackupSuffix", c), ("typeSubstitutions", t),
      ("disabledPasses", d)] = some [some p, some e, some a, some c, some t, some d] := fun _ _ _ _ _ _ => rfl
  have hsubs : Json.list? substitutionOfJson? (Json.ofList (fun sub : TypeSubstitution =>
      .obj [("from", .str sub.source), ("to", .str sub.target)]) o.typeSubstitutions) =
      some o.typeSubstitutions := list?_ofList_self fun _ => rfl
  have hpasses : Json.list? Json.str? (Json.ofList .str o.disabledPasses) = some o.disabledPasses :=
    list?_ofList_self fun _ => rfl
  simp [ofJson?, toJson, hfields, fieldOr, Json.bool?, Json.str?, hsubs, hpasses]

theorem parse_render (o : Options) : parse o.toJson.render = o.validate.map fun _ => o := by
  rw [parse, o.legible.parse?_render]
  simp only [ofJson, ofJson?_toJson]
  rfl

end Options

/-- **Options survive their own text.** Reading the text of options gives these options exactly if they keep the
rules, and fails exactly as checking them does. -/
theorem options_survive_text (o : Options) :
    (∀ o', Options.parse o.toJson.render = .ok o' ↔ o.validate = .ok () ∧ o' = o) ∧
      ∀ e, Options.parse o.toJson.render = .error e ↔ o.validate = .error e := by
  rw [o.parse_render]
  cases o.validate with
  | ok => simp [Except.map, eq_comm]
  | error => simp [Except.map]

end Ambient
