import NeuralFlow.Json.Problem

/-!
Readers of JSON text. A `Reader` takes characters off the front of a text and gives back a value
with the rest, or the first problem it met. This file has the words, strings and the layout between
values.
-/

namespace NeuralFlow.Json

/-- A reader of a value at the front of a text. -/
abbrev Reader (β : Type) := List Char → Except Problem (β × List Char)

def isBlank (c : Char) : Bool := c == ' ' || c == '\n' || c == '\t' || c == '\r'

def dropBlank (s : List Char) : List Char := s.dropWhile isBlank

/-- Takes the given characters off the text. -/
def readWord : List Char → List Char → Except Problem (List Char)
  | [], s => .ok s
  | _ :: _, [] => .error .truncated
  | c :: word, d :: s => if c = d then readWord word s else .error .malformed

/-- Takes the colon after a name. -/
def readColon (s : List Char) : Except Problem (List Char) :=
  match dropBlank s with
  | [] => .error .truncated
  | ':' :: s => .ok s
  | _ => .error .malformed

/-! ## Strings -/

def hexDigit? (c : Char) : Option Nat :=
  if '0' ≤ c ∧ c ≤ '9' then some (c.toNat - '0'.toNat)
  else if 'a' ≤ c ∧ c ≤ 'f' then some (c.toNat - 'a'.toNat + 10)
  else if 'A' ≤ c ∧ c ≤ 'F' then some (c.toNat - 'A'.toNat + 10)
  else none

def byteCount (s : List Char) : Nat := s.foldl (fun n c => n + c.utf8Size) 0

/-- Four hexadecimal digits. A text of fewer than four bytes ends too early, whatever it holds. -/
def readHex (s : List Char) : Except Problem (Nat × List Char) :=
  if byteCount (s.take 4) < 4 then .error .truncated
  else match s with
    | a :: b :: c :: d :: s =>
      match hexDigit? a, hexDigit? b, hexDigit? c, hexDigit? d with
      | some a, some b, some c, some d => .ok (((a * 16 + b) * 16 + c) * 16 + d, s)
      | _, _, _, _ => .error .malformed
    | _ => .error .malformed

/-- The character after `\u`: four hexadecimal digits, or two groups of four that form a pair of
surrogates. -/
def readCodePoint (s : List Char) : Except Problem (Char × List Char) := do
  let (high, s) ← readHex s
  if high < 0xD800 ∨ 0xDFFF < high then return (Char.ofNat high, s)
  else if 0xDC00 ≤ high then throw .malformed
  else
    match s with
    | [] | ['\\'] => throw .truncated
    | '\\' :: 'u' :: s =>
      let (low, s) ← readHex s
      if 0xDC00 ≤ low ∧ low ≤ 0xDFFF then
        return (Char.ofNat (0x10000 + (high - 0xD800) * 0x400 + (low - 0xDC00)), s)
      else throw .malformed
    | _ => throw .malformed

/-- What a single letter after a backslash stands for. -/
def escaped? : Char → Option Char
  | '"' => some '"'
  | '\\' => some '\\'
  | '/' => some '/'
  | 'b' => some '\x08'
  | 'f' => some '\x0c'
  | 'n' => some '\n'
  | 'r' => some '\r'
  | 't' => some '\t'
  | _ => none

/-- The characters up to the closing quote, with `codePoint` for the escapes by number. The text's
length is enough fuel. -/
def readCharsWith (codePoint : Reader Char) : Nat → Reader (List Char)
  | 0, _ => .error .truncated
  | fuel + 1, s =>
    match s with
    | [] | ['\\'] => .error .truncated
    | '"' :: s => .ok ([], s)
    | '\\' :: 'u' :: s => do
      let (c, s) ← codePoint s
      let (cs, s) ← readCharsWith codePoint fuel s
      return (c :: cs, s)
    | '\\' :: e :: s =>
      match escaped? e with
      | none => .error .malformed
      | some c => do
        let (cs, s) ← readCharsWith codePoint fuel s
        return (c :: cs, s)
    | c :: s =>
      if c.toNat < 0x20 then .error .malformed
      else do
        let (cs, s) ← readCharsWith codePoint fuel s
        return (c :: cs, s)

def readString : Reader String := fun s => do
  let (cs, s) ← readCharsWith readCodePoint (s.length + 1) s
  return (String.ofList cs, s)

/-- The rest of a text after a string whose opening quote was taken. Surrogates need no partner in
a string that nobody looks at. -/
def skipString (s : List Char) : Except Problem (List Char) := do
  let anyUnit : Reader Char := fun s => do
    let (_, s) ← readHex s
    return (' ', s)
  let (_, s) ← readCharsWith anyUnit (s.length + 1) s
  return s

end NeuralFlow.Json
