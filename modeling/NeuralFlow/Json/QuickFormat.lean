import NeuralFlow.Json.Number

/-!
A quick number format. Numbers are written as their shortest decimals. The digits of a literal are
collected in a 64 bit word, digits for which there is no more room only move the point, and the word is
scaled by one power of ten.
-/

namespace NeuralFlow.Json

/-- The digits of a literal: those that fit a 64 bit word, the power of ten of the last of them, and
whether a digit of the current part was already left out. -/
structure Significand where
  word : Nat
  exponent : Int
  full : Bool
deriving Repr, DecidableEq

namespace Significand

/-- Whether there is room for one more digit. -/
def fits (d : Significand) (digit : Nat) : Bool := !d.full && d.word * 10 + digit < UInt64.size

/-- One more digit before the point. -/
def pushInteger (d : Significand) (c : Char) : Significand :=
  if d.fits (digitValue c) then { d with word := d.word * 10 + digitValue c }
  else { d with exponent := d.exponent + 1, full := true }

/-- One more digit after the point. -/
def pushFraction (d : Significand) (c : Char) : Significand :=
  if d.fits (digitValue c) then
    { d with word := d.word * 10 + digitValue c, exponent := d.exponent - 1 }
  else { d with full := true }

end Significand

def Literal.significand (literal : Literal) : Significand :=
  let d : Significand := literal.whole.foldl .pushInteger ⟨0, 0, false⟩
  let d := literal.fraction.foldl .pushFraction { d with full := false }
  { d with exponent := d.exponent + literal.exponent.getD 0 }

/-- `x * 10 ^ e` in double precision by one multiplication or division; exponents below `-308` are
taken in steps, of which three lead to zero. Nothing is returned if the result is infinite. -/
def scaleByTen : Nat → Float → Int → Option Float
  | 0, x, _ => some x
  | fuel + 1, x, e =>
    if e.natAbs ≤ 308 then
      let power := Float.ofScientific 1 false e.natAbs
      if 0 ≤ e then
        let y := x * power
        if y.isInf then none else some y
      else some (x / power)
    else if x == 0 then some x
    else if 0 ≤ e then none
    else scaleByTen fuel (x / 1e308) (e + 308)

def Significand.toFloat? (d : Significand) : Option Float :=
  scaleByTen 4 d.word.toUInt64.toFloat d.exponent

def NumberFormat.quick : NumberFormat where
  write := Layout.jsonSingleChars
  read literal := literal.significand.toFloat?

end NeuralFlow.Json
