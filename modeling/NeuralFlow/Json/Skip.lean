import NeuralFlow.Json.Number

/-!
Values nobody asked for. Their text must be JSON, but numbers are not evaluated and strings not
decoded.
-/

namespace NeuralFlow.Json

/-- Drops the exponent of a number after its `e`. -/
def skipExponent (s : List Char) : Except Problem (List Char) :=
  let s := match s with
    | '-' :: s | '+' :: s => s
    | s => s
  match s with
  | c :: s => if isDigit c then .ok (s.dropWhile isDigit) else .error .malformed
  | [] => .error .malformed

/-- Drops the fraction and exponent of a number. -/
def skipTail (s : List Char) : Except Problem (List Char) :=
  match s with
  | '.' :: c :: s =>
    if isDigit c then
      match s.dropWhile isDigit with
      | 'e' :: s | 'E' :: s => skipExponent s
      | s => .ok s
    else .error .malformed
  | ['.'] => .error .malformed
  | 'e' :: s | 'E' :: s => skipExponent s
  | s => .ok s

/-- Drops a number whose sign was taken. -/
def skipNumber (s : List Char) : Except Problem (List Char) :=
  match s with
  | '0' :: c :: s => if isDigit c then .error .malformed else skipTail (c :: s)
  | c :: s => if isDigit c then skipTail (s.dropWhile isDigit) else .error .malformed
  | [] => .error .malformed

/-- Drops a value that is neither a list nor an object. -/
def skipScalar : List Char → Except Problem (List Char)
  | [] => .error .truncated
  | 'n' :: s => readWord ['u', 'l', 'l'] s
  | 't' :: s => readWord ['r', 'u', 'e'] s
  | 'f' :: s => readWord ['a', 'l', 's', 'e'] s
  | '-' :: s => skipNumber s
  | '"' :: s => skipString s
  | c :: s => if isDigit c then skipNumber (c :: s) else .error .malformed

/-- Drops the name of a member and its colon. -/
def skipName (s : List Char) : Except Problem (List Char) :=
  match dropBlank s with
  | [] => .error .truncated
  | '"' :: s => do readColon (← skipString s)
  | _ => .error .malformed

/-- A list or an object whose end was not reached yet. -/
inductive Enclosure where
  | list
  | object
deriving Repr, DecidableEq

/-- What the text goes on with: a value, or what may follow one. -/
inductive Awaited where
  | value
  | continuation
deriving Repr, DecidableEq

/-- Drops what is left of a value inside the given enclosures, of which the innermost comes first.
They are held in a list, so that depth costs no stack. Each round takes a character at least. -/
def skipWithin : Nat → Awaited → List Enclosure → List Char → Except Problem (List Char)
  | 0, _, _, _ => .error .truncated
  | fuel + 1, .value, around, s =>
    match dropBlank s with
    | '[' :: s =>
      match dropBlank s with
      | [] => .error .truncated
      | ']' :: s => skipWithin fuel .continuation around s
      | s => skipWithin fuel .value (.list :: around) s
    | '\x7b' :: s =>
      match dropBlank s with
      | [] => .error .truncated
      | '\x7d' :: s => skipWithin fuel .continuation around s
      | s => do skipWithin fuel .value (.object :: around) (← skipName s)
    | s => do skipWithin fuel .continuation around (← skipScalar s)
  | _ + 1, .continuation, [], s => .ok s
  | fuel + 1, .continuation, .list :: around, s =>
    match dropBlank s with
    | [] => .error .truncated
    | ']' :: s => skipWithin fuel .continuation around s
    | ',' :: s => skipWithin fuel .value (.list :: around) s
    | _ => .error .malformed
  | fuel + 1, .continuation, .object :: around, s =>
    match dropBlank s with
    | [] => .error .truncated
    | '\x7d' :: s => skipWithin fuel .continuation around s
    | ',' :: s => do skipWithin fuel .value (.object :: around) (← skipName s)
    | _ => .error .malformed

/-- Drops a value of any kind. -/
def skipValue (s : List Char) : Except Problem (List Char) :=
  skipWithin (s.length + 1) .value [] s

end NeuralFlow.Json
