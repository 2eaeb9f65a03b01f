import NeuralFlow.Json.Reader
import NeuralFlow.Scalar.Single

/-!
Numbers in JSON text. A literal without a point and an exponent is an integer as long as it fits 64
bits; every other literal is a double precision number. How such numbers are written, and which number
a literal stands for, is a `NumberFormat`.
-/

namespace NeuralFlow.Json

inductive Number where
  | integer (n : Int)
  | float (x : Float)

/-- A number as it is written, without its sign. -/
structure Literal where
  whole : List Char
  /-- The digits after the point; without a point there are none. -/
  fraction : List Char
  exponent : Option Int
deriving Repr, DecidableEq

/-- How numbers that are no integers are written and read. -/
structure NumberFormat where
  write : Float32 → List Char
  /-- The double precision number of a literal, if it is finite. -/
  read : Literal → Option Float

def isDigit (c : Char) : Bool := '0' ≤ c && c ≤ '9'

def digitValue (c : Char) : Nat := c.toNat - '0'.toNat

def digitsValue (cs : List Char) : Nat := cs.foldl (fun n c => n * 10 + digitValue c) 0

/-! ## Literals -/

/-- The digits before the point: a single zero, or digits of which the first is not zero. -/
def readIntegerDigits (s : List Char) : Except Problem (List Char × List Char) :=
  match s with
  | [] => .error .truncated
  | '0' :: c :: s => if isDigit c then .error .malformed else .ok (['0'], c :: s)
  | c :: _ =>
    if isDigit c then .ok (s.takeWhile isDigit, s.dropWhile isDigit) else .error .malformed

/-- The digits after a point, of which there is at least one. -/
def readFractionDigits (s : List Char) : Except Problem (List Char × List Char) :=
  match s with
  | [] => .error .truncated
  | c :: _ =>
    if isDigit c then .ok (s.takeWhile isDigit, s.dropWhile isDigit) else .error .malformed

/-- The point and the digits after it, if a point follows. -/
def readFraction (s : List Char) : Except Problem (List Char × List Char) :=
  match s with
  | '.' :: s => readFractionDigits s
  | s => .ok ([], s)

def readExponentDigits (s : List Char) : Except Problem (Int × List Char) :=
  let (minus, s) := match s with
    | '-' :: s => (true, s)
    | '+' :: s => (false, s)
    | s => (false, s)
  match s with
  | [] => .error .truncated
  | c :: _ =>
    if isDigit c then
      let e : Int := digitsValue (s.takeWhile isDigit)
      .ok (if minus then -e else e, s.dropWhile isDigit)
    else .error .malformed

/-- The exponent, if one follows. -/
def readExponent (s : List Char) : Except Problem (Option Int × List Char) :=
  match s with
  | 'e' :: s | 'E' :: s => do
    let (e, s) ← readExponentDigits s
    return (some e, s)
  | s => .ok (none, s)

def readLiteral : Reader Literal := fun s => do
  let (whole, s) ← readIntegerDigits s
  let (fraction, s) ← readFraction s
  let (exponent, s) ← readExponent s
  return (⟨whole, fraction, exponent⟩, s)

/-- Whether there is a minus, and the literal after it. -/
def readSigned : Reader (Bool × Literal) := fun s => do
  let (minus, s) := match s with
    | '-' :: s => (true, s)
    | s => (false, s)
  let (literal, s) ← readLiteral s
  return ((minus, literal), s)

/-! ## Numbers -/

/-- The integer of a literal, if it is one and fits. The negative zero is none. -/
def Literal.integer? (literal : Literal) (minus : Bool) : Option Int :=
  let n := digitsValue literal.whole
  match literal.fraction, literal.exponent, minus with
  | [], none, false => if n < UInt64.size then some n else none
  | [], none, true => if 0 < n ∧ n ≤ UInt64.size / 2 then some (-n) else none
  | _, _, _ => none

section Format

variable (format : NumberFormat)

def numberOf (minus : Bool) (literal : Literal) : Except Problem Number :=
  match literal.integer? minus with
  | some n => .ok (.integer n)
  | none =>
    match format.read literal with
    | none => .error .malformed
    | some x => .ok (.float (if minus then -x else x))

def readNumber : Reader Number := fun s => do
  let ((minus, literal), s) ← readSigned s
  return (← numberOf format minus literal, s)

def startsNumber (c : Char) : Bool := c == '-' || isDigit c

def Number.found : Number → Found
  | .integer n => .integer n
  | .float x => .float x

/-- The problem with a value of the wrong type at the front of a text. A word, number or string is
read to its end first, and may be broken itself. -/
def mismatch (wanted : String) (s : List Char) : Problem :=
  let after {β : Type} (result : Except Problem β) (found : β → Found) : Problem :=
    match result with
    | .error problem => problem
    | .ok value => .wrongType (found value) wanted
  match s with
  | [] => .truncated
  | 'n' :: s => after (readWord ['u', 'l', 'l'] s) fun _ => .null
  | 't' :: s => after (readWord ['r', 'u', 'e'] s) fun _ => .boolean true
  | 'f' :: s => after (readWord ['a', 'l', 's', 'e'] s) fun _ => .boolean false
  | '"' :: s => after (readString s) fun value => .string value.1
  | '[' :: _ => .wrongType .list wanted
  | '\x7b' :: _ => .wrongType .object wanted
  | c :: _ =>
    if startsNumber c then after (readNumber format s) fun value => value.1.found else .malformed

/-! ## Values of fixed type -/

def readBool : Reader Bool := fun s =>
  match dropBlank s with
  | 't' :: s => do return (true, ← readWord ['r', 'u', 'e'] s)
  | 'f' :: s => do return (false, ← readWord ['a', 'l', 's', 'e'] s)
  | s => .error (mismatch format "a boolean" s)

/-- A number, for a value described by `wanted`. -/
def readNumberFor (wanted : String) : Reader Number := fun s =>
  match dropBlank s with
  | [] => .error .truncated
  | c :: s =>
    if startsNumber c then readNumber format (c :: s) else .error (mismatch format wanted (c :: s))

/-- A natural number below a bound. -/
def readNatBelow (bound : Nat) (wanted : String) : Reader Nat := fun s => do
  let (number, s) ← readNumberFor format wanted s
  match number with
  | .integer n => if 0 ≤ n ∧ n < bound then return (n.toNat, s) else throw (.outOfRange n wanted)
  | .float x => throw (.wrongType (.float x) wanted)

def readSize : Reader UInt64 := fun s => do
  let (n, s) ← readNatBelow format UInt64.size "usize" s
  return (.ofNat n, s)

def readSeed : Reader UInt64 := fun s => do
  let (n, s) ← readNatBelow format UInt64.size "u64" s
  return (.ofNat n, s)

def readCode : Reader UInt32 := fun s => do
  let (n, s) ← readNatBelow format UInt32.size "u32" s
  return (.ofNat n, s)

def Number.toSingle : Number → Float32
  | .integer n => if n < 0 then -Single.ofNat n.natAbs else Single.ofNat n.natAbs
  | .float x => Single.ofDouble x

/-- A single precision number; integers count as numbers. -/
def readSingle : Reader Float32 := fun s => do
  let (number, s) ← readNumberFor format "f32" s
  return (number.toSingle, s)

end Format

end NeuralFlow.Json
