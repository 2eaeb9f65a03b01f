/-!
Shortest decimals. The value `m * 2 ^ q` of a binary format owns the interval of reals that round
to it, and `Decimal.shortest` picks the decimal with the fewest digits in that interval: the
coarsest power of ten with a multiple inside wins, and of two multiples the nearer one. What
happens when both are equally near is for the caller to say.
-/

namespace NeuralFlow

/-- The number `digits * 10 ^ exponent`. -/
structure Decimal where
  digits : Nat
  exponent : Int
deriving Repr, DecidableEq

namespace Decimal

inductive Tie where
  | upper
  | evenDigit
deriving Repr, DecidableEq

/-- Removes factors of ten, at most `fuel` of them. -/
def stripZeros : Nat → Decimal → Decimal
  | 0, d => d
  | fuel + 1, d =>
    if d.digits % 10 = 0 then stripZeros fuel ⟨d.digits / 10, d.exponent + 1⟩ else d

def normalize (d : Decimal) : Decimal :=
  if d.digits = 0 then ⟨0, 0⟩ else stripZeros d.digits.log2 d

/-- The reals that round to `value * 2 ^ exponent`: those between `lower` and `upper`, in the same
unit, with the ends when `closed`. -/
structure Interval where
  lower : Nat
  value : Nat
  upper : Nat
  exponent : Int
  closed : Bool
deriving Repr, DecidableEq

namespace Interval

/-- The interval of the number `m * 2 ^ q` of a binary format. Its ends lie half way to the
neighbours; below a power of two the neighbour is twice as near, unless the numbers are
subnormal. -/
def ofBinary (format : Float.Model.Format) (m : Nat) (q : Int) : Interval where
  lower := if m = Nat.pow 2 format.mantissaBitsWithoutImplicit ∧ format.minExponent < q
    then 4 * m - 1 else 4 * m - 2
  value := 4 * m
  upper := 4 * m + 2
  exponent := q - 2
  closed := m % 2 == 0

/-- Whether `a` is below `b`, or equal to it where the interval is closed. -/
def within (i : Interval) (a b : Nat) : Bool := a < b || (i.closed && a == b)

/-- The multiple of `10 ^ t` in the interval, the nearer one if both neighbours of the value are
inside. All quantities are brought to whole numbers first. -/
def multiple? (i : Interval) (tie : Tie) (t : Int) : Option Decimal :=
  let scale := Nat.pow 2 i.exponent.toNat * Nat.pow 10 (-t).toNat
  let unit := Nat.pow 2 (-i.exponent).toNat * Nat.pow 10 t.toNat
  let value := i.value * scale
  let floor := value / unit
  let inside (c : Nat) : Bool := i.within (i.lower * scale) (c * unit) &&
    i.within (c * unit) (i.upper * scale)
  match inside floor, inside (floor + 1) with
  | false, false => none
  | true, false => some ⟨floor, t⟩
  | false, true => some ⟨floor + 1, t⟩
  | true, true =>
    let below := value - floor * unit
    let above := (floor + 1) * unit - value
    if below < above then some ⟨floor, t⟩
    else if above < below then some ⟨floor + 1, t⟩
    else match tie with
      | .upper => some ⟨floor + 1, t⟩
      | .evenDigit => some ⟨if floor % 2 = 0 then floor else floor + 1, t⟩

/-- A power of ten above every number of the interval: a number below `2 ^ k` is below
`10 ^ (k * 0.302)` for positive `k` and below `10 ^ (k * 0.301)` for negative `k`, up to one. -/
def coarsest (i : Interval) : Int :=
  let bits : Int := i.value.log2 + 1 + i.exponent
  (if 0 ≤ bits then bits * 302 / 1000 else bits * 301 / 1000) + 1

/-- The decimal of the interval with the fewest digits. Twenty-four powers of ten are enough for
the two formats in use, whose numbers need at most seventeen digits. -/
def shortest (i : Interval) (tie : Tie) : Decimal :=
  let found := (List.range 24).findSome? fun (k : Nat) => i.multiple? tie (i.coarsest - k)
  (found.getD ⟨0, 0⟩).normalize

end Interval

end Decimal

end NeuralFlow
