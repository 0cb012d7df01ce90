import Ambient.Json.Basic

/-!
# Tokens of a JSON text

The scanner of JSON texts. It is strict: no comments, no leading zeros, no control characters in
strings, and white space is blank, tab, line feed and carriage return only.
-/

namespace Ambient.Json

/-- A token. A string has no text if its escapes do not pair surrogates. -/
inductive Token where
  | openObj
  | closeObj
  | openArr
  | closeArr
  | colon
  | comma
  | null
  | bool (b : Bool)
  | num (text : List Char)
  | str (text : Option (List Char))
  deriving DecidableEq, Repr

def isSpace (c : Char) : Bool :=
  c == ' ' || c == '\t' || c == '\n' || c == '\r'

def hexDigit? (c : Char) : Option Nat :=
  if '0' ≤ c ∧ c ≤ '9' then some (c.toNat - '0'.toNat)
  else if 'a' ≤ c ∧ c ≤ 'f' then some (c.toNat - 'a'.toNat + 10)
  else if 'A' ≤ c ∧ c ≤ 'F' then some (c.toNat - 'A'.toNat + 10)
  else none

def hexUnit? (a b c d : Char) : Option Nat := do
  return (← hexDigit? a) * 0x1000 + (← hexDigit? b) * 0x100 + (← hexDigit? c) * 0x10 +
    (← hexDigit? d)

/-- The character that a one-letter escape stands for. -/
def escaped? (c : Char) : Option Char :=
  if c = '"' then some '"'
  else if c = '\\' then some '\\'
  else if c = '/' then some '/'
  else if c = 'b' then some '\x08'
  else if c = 'f' then some '\x0c'
  else if c = 'n' then some '\n'
  else if c = 'r' then some '\r'
  else if c = 't' then some '\t'
  else none

/-- What a string literal says so far: its characters backwards, or nothing once a surrogate was
left alone, and the first half of a pair whose second half must come next. -/
structure Partial where
  text : Option (List Char)
  high : Option Nat

namespace Partial

def empty : Partial := ⟨some [], none⟩

def push (p : Partial) (c : Char) : Partial :=
  match p.high with
  | none => { p with text := p.text.map (c :: ·) }
  | some _ => ⟨none, none⟩

def pushUnit (p : Partial) (n : Nat) : Partial :=
  match p.high with
  | none =>
    if 0xD800 ≤ n ∧ n ≤ 0xDBFF then { p with high := some n }
    else if 0xDC00 ≤ n ∧ n ≤ 0xDFFF then ⟨none, none⟩
    else p.push (Char.ofNat n)
  | some h =>
    if 0xDC00 ≤ n ∧ n ≤ 0xDFFF then
      ⟨p.text.map (Char.ofNat (0x10000 + (h - 0xD800) * 0x400 + (n - 0xDC00)) :: ·), none⟩
    else ⟨none, none⟩

/-- The text of the finished literal. -/
def finish (p : Partial) : Option (List Char) :=
  match p.high with
  | none => p.text.map List.reverse
  | some _ => none

end Partial

/-- Reads the rest of a string literal, up to and with the closing quote. -/
def scanString (p : Partial) : List Char → Option (Option (List Char) × List Char)
  | [] => none
  | '"' :: cs => some (p.finish, cs)
  | '\\' :: 'u' :: a :: b :: c :: d :: cs =>
    match hexUnit? a b c d with
    | some n => scanString (p.pushUnit n) cs
    | none => none
  | '\\' :: c :: cs =>
    match escaped? c with
    | some e => scanString (p.push e) cs
    | none => none
  | c :: cs => if c.toNat < 0x20 then none else scanString (p.push c) cs

def scanDigits (cs : List Char) : Option (List Char × List Char) :=
  match cs.span Char.isDigit with
  | ([], _) => none
  | r => some r

/-- Reads the integer part of a number: no zero before another digit. -/
def scanInteger : List Char → Option (List Char × List Char)
  | '0' :: cs => some (['0'], cs)
  | cs => scanDigits cs

/-- Reads the fraction of a number, if there is one. -/
def scanFraction : List Char → Option (List Char × List Char)
  | '.' :: cs => (scanDigits cs).map fun (ds, rest) => ('.' :: ds, rest)
  | cs => some ([], cs)

/-- Reads the digits of an exponent, after its sign if there is one. -/
def scanSignedDigits : List Char → Option (List Char × List Char)
  | '+' :: cs => (scanDigits cs).map fun (ds, rest) => ('+' :: ds, rest)
  | '-' :: cs => (scanDigits cs).map fun (ds, rest) => ('-' :: ds, rest)
  | cs => scanDigits cs

/-- Reads the exponent of a number, if there is one. -/
def scanExponent : List Char → Option (List Char × List Char)
  | 'e' :: cs => (scanSignedDigits cs).map fun (ds, rest) => ('e' :: ds, rest)
  | 'E' :: cs => (scanSignedDigits cs).map fun (ds, rest) => ('E' :: ds, rest)
  | cs => some ([], cs)

def scanUnsigned (cs : List Char) : Option (List Char × List Char) := do
  let (int, cs) ← scanInteger cs
  let (frac, cs) ← scanFraction cs
  let (exp, cs) ← scanExponent cs
  return (int ++ frac ++ exp, cs)

def scanNumber : List Char → Option (List Char × List Char)
  | '-' :: cs => (scanUnsigned cs).map fun (text, rest) => ('-' :: text, rest)
  | cs => scanUnsigned cs

/-- Reads the token that the text starts with. -/
def Token.next : List Char → Option (Token × List Char)
  | '\x7b' :: cs => some (.openObj, cs)
  | '\x7d' :: cs => some (.closeObj, cs)
  | '[' :: cs => some (.openArr, cs)
  | ']' :: cs => some (.closeArr, cs)
  | ':' :: cs => some (.colon, cs)
  | ',' :: cs => some (.comma, cs)
  | 'n' :: 'u' :: 'l' :: 'l' :: cs => some (.null, cs)
  | 't' :: 'r' :: 'u' :: 'e' :: cs => some (.bool true, cs)
  | 'f' :: 'a' :: 'l' :: 's' :: 'e' :: cs => some (.bool false, cs)
  | '"' :: cs => (scanString .empty cs).map fun (text, rest) => (.str text, rest)
  | cs => (scanNumber cs).map fun (text, rest) => (.num text, rest)

/-- Reads at most `fuel` tokens, which must be all of the text. -/
def Token.scanAll : Nat → List Char → Option (List Token)
  | fuel, cs =>
    match cs.dropWhile isSpace, fuel with
    | [], _ => some []
    | _, 0 => none
    | cs, fuel + 1 =>
      match Token.next cs with
      | none => none
      | some (t, rest) => (Token.scanAll fuel rest).map (t :: ·)

/-- The tokens of a text. A token has at least one character, so there are no more tokens than
characters. -/
def Token.scan (cs : List Char) : Option (List Token) :=
  Token.scanAll cs.length cs

end Ambient.Json
