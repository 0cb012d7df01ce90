import Ambient.Json.Token

/-!
# JSON texts

The reader and the writer of JSON texts. The writer puts no space between tokens and escapes quotes,
backslashes and control characters only.
-/

namespace Ambient.Json

/-- An object of the fields that were read; one key without a text spoils the whole. -/
def ofFields (fields : List (Option (List Char) × Json)) : Json :=
  match fields.mapM fun (k, j) => k.map fun cs => (String.ofList cs, j) with
  | some fields => .obj fields
  | none => .illFormed

mutual

/-- Reads a value from the tokens, to a depth of at most `fuel` steps. -/
def readValue : Nat → List Token → Option (Json × List Token)
  | 0, _ => none
  | _ + 1, .null :: ts => some (.null, ts)
  | _ + 1, .bool b :: ts => some (.bool b, ts)
  | _ + 1, .num text :: ts => some (.num (String.ofList text), ts)
  | _ + 1, .str (some text) :: ts => some (.str (String.ofList text), ts)
  | _ + 1, .str none :: ts => some (.illFormed, ts)
  | _ + 1, .openArr :: .closeArr :: ts => some (.arr [], ts)
  | fuel + 1, .openArr :: ts => (readItems fuel ts).map fun (js, rest) => (.arr js, rest)
  | _ + 1, .openObj :: .closeObj :: ts => some (.obj [], ts)
  | fuel + 1, .openObj :: ts => (readFields fuel ts).map fun (fs, rest) => (ofFields fs, rest)
  | _ + 1, _ => none

/-- Reads the items of an array up to its closing bracket, at least one. -/
def readItems : Nat → List Token → Option (List Json × List Token)
  | 0, _ => none
  | fuel + 1, ts =>
    match readValue fuel ts with
    | some (j, .comma :: ts) => (readItems fuel ts).map fun (js, rest) => (j :: js, rest)
    | some (j, .closeArr :: ts) => some ([j], ts)
    | _ => none

/-- Reads the fields of an object up to its closing brace, at least one. -/
def readFields : Nat → List Token → Option (List (Option (List Char) × Json) × List Token)
  | 0, _ => none
  | fuel + 1, .str k :: .colon :: ts =>
    match readValue fuel ts with
    | some (j, .comma :: ts) => (readFields fuel ts).map fun (fs, rest) => ((k, j) :: fs, rest)
    | some (j, .closeObj :: ts) => some ([(k, j)], ts)
    | _ => none
  | _ + 1, _ => none

end

/-- Reads tokens that form one value. Every step takes a token or goes one level down, at the cost
of a token each. -/
def ofTokens? (ts : List Token) : Option Json :=
  match readValue (2 * ts.length + 1) ts with
  | some (j, []) => some j
  | _ => none

def parse? (text : String) : Option Json :=
  (Token.scan text.toList).bind ofTokens?

def hexDigit (n : Nat) : Char :=
  Char.ofNat (if n < 10 then '0'.toNat + n else 'a'.toNat + (n - 10))

/-- A character as it is written inside a string literal. -/
def escape (c : Char) : List Char :=
  if c = '"' then ['\\', '"']
  else if c = '\\' then ['\\', '\\']
  else if c = '\x08' then ['\\', 'b']
  else if c = '\x0c' then ['\\', 'f']
  else if c = '\n' then ['\\', 'n']
  else if c = '\r' then ['\\', 'r']
  else if c = '\t' then ['\\', 't']
  else if c.toNat < 0x20 then
    ['\\', 'u', '0', '0', hexDigit (c.toNat / 16), hexDigit (c.toNat % 16)]
  else [c]

/-- Writes a text as a string literal, before `rest`. -/
def quote (s : String) (rest : List Char) : List Char :=
  '"' :: (s.toList.flatMap escape ++ '"' :: rest)

mutual

/-- Writes a value before `rest`. A value without text is written as `null`. -/
def write : Json → List Char → List Char
  | .null, rest | .illFormed, rest => 'n' :: 'u' :: 'l' :: 'l' :: rest
  | .bool true, rest => 't' :: 'r' :: 'u' :: 'e' :: rest
  | .bool false, rest => 'f' :: 'a' :: 'l' :: 's' :: 'e' :: rest
  | .num text, rest => text.toList ++ rest
  | .str s, rest => quote s rest
  | .arr [], rest => '[' :: ']' :: rest
  | .arr (j :: js), rest => '[' :: j.write (writeItems js rest)
  | .obj [], rest => '\x7b' :: '\x7d' :: rest
  | .obj ((k, j) :: fs), rest => '\x7b' :: quote k (':' :: j.write (writeFields fs rest))

/-- Writes the items after the first, and the closing bracket. -/
def writeItems : List Json → List Char → List Char
  | [], rest => ']' :: rest
  | j :: js, rest => ',' :: j.write (writeItems js rest)

/-- Writes the fields after the first, and the closing brace. -/
def writeFields : List (String × Json) → List Char → List Char
  | [], rest => '\x7d' :: rest
  | (k, j) :: fs, rest => ',' :: quote k (':' :: j.write (writeFields fs rest))

end

def render (j : Json) : String :=
  String.ofList (j.write [])

end Ambient.Json
