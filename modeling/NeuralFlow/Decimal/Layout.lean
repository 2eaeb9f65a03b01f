import NeuralFlow.Decimal.Shortest

/-!
Written forms of numbers. A `Layout` says how the digits of a shortest decimal are set: which
decimal exponents are written out in full, whether a whole number ends in `.0`, and what stands for
the values that are no numbers. Three layouts are in use: one for messages and one for each float
width in JSON text.
-/

namespace NeuralFlow

open Float.Model Float.Model.UnpackedFloat

/-- How a binary number is written in decimal. -/
structure Layout where
  format : Format
  tie : Decimal.Tie
  /-- Whether a number whose leading digit stands at `10 ^ e` is written without an exponent. -/
  positional : Int → Bool
  /-- Whether a whole number gets a fraction of one zero. -/
  pointZero : Bool
  undefined : String
  infinite : String
  minusInfinite : String

namespace Layout

/-- Single precision numbers in messages: always written out, whole numbers without a point. -/
def message : Layout where
  format := .binary32
  tie := .upper
  positional _ := true
  pointZero := false
  undefined := "NaN"
  infinite := "inf"
  minusInfinite := "-inf"

/-- Single precision numbers in JSON text: an exponent is used below one millionth and from
`10 ^ 13` on, and values that are no numbers become `null`. -/
def jsonSingle : Layout where
  format := .binary32
  tie := .evenDigit
  positional e := -6 ≤ e ∧ e ≤ 12
  pointZero := true
  undefined := "null"
  infinite := "null"
  minusInfinite := "null"

/-- Double precision numbers as JSON text shows them: an exponent is used below `10 ^ -5` and from
`10 ^ 16` on. -/
def jsonDouble : Layout where
  format := .binary64
  tie := .evenDigit
  positional e := -5 ≤ e ∧ e ≤ 15
  pointZero := true
  undefined := "null"
  infinite := "null"
  minusInfinite := "null"

def digits (n : Nat) : List Char := Nat.toDigits 10 n

/-- Digits with a point after the first `k` of them, if any are left. -/
def pointed (layout : Layout) (ds : List Char) (k : Nat) : List Char :=
  if k < ds.length then ds.take k ++ '.' :: ds.drop k
  else ds ++ List.replicate (k - ds.length) '0' ++ (if layout.pointZero then ['.', '0'] else [])

/-- A positive decimal without trailing zeros. -/
def decimal (layout : Layout) (d : Decimal) : List Char :=
  let ds := digits d.digits
  let lead : Int := d.exponent + ds.length - 1
  if layout.positional lead then
    if lead < 0 then '0' :: '.' :: List.replicate (-lead - 1).toNat '0' ++ ds
    else layout.pointed ds (lead.toNat + 1)
  else
    let mantissa := if ds.length = 1 then ds else ds.take 1 ++ '.' :: ds.drop 1
    mantissa ++ 'e' :: (if lead < 0 then '-' else '+') :: digits lead.natAbs

def sign : Sign → List Char
  | .positive => []
  | .negative => ['-']

def chars (layout : Layout) : UnpackedFloat → List Char
  | .notANumber => layout.undefined.toList
  | .infinity .positive => layout.infinite.toList
  | .infinity .negative => layout.minusInfinite.toList
  | .zero s => sign s ++ '0' :: (if layout.pointZero then ['.', '0'] else [])
  | .finite s m q _ =>
    sign s ++ layout.decimal ((Decimal.Interval.ofBinary layout.format m q).shortest layout.tie)

def messageText (x : Float32) : String := String.ofList (message.chars x.toModel.unpack)

def jsonSingleChars (x : Float32) : List Char := jsonSingle.chars x.toModel.unpack

def jsonDoubleText (x : Float) : String := String.ofList (jsonDouble.chars x.toModel.unpack)

end Layout

end NeuralFlow
