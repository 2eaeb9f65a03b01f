import NeuralFlow.Scalar

/-!
Single precision as a number type. Arithmetic, square roots and comparisons are those of the
binary32 format; double precision carries the intermediate values of `exp x - 1`.
-/

namespace NeuralFlow.Single

open Float.Model

def ofDouble (x : Float) : Float32 :=
  .ofModel <| .pack <|
    match x.toModel.unpack with
    | .finite sign mantissa exponent _ => .round .binary32 sign mantissa exponent
    | special => special

/-- The single precision number nearest to a natural number, ties to the even one. -/
def ofNat (n : Nat) : Float32 := .ofModel (.ofNat n)

/-- The weight of the sign bit, which is the first of thirty-two. -/
def signWeight : Nat := 2147483648

/-- The position of a value in the total order: negative values below positive ones, the negative
zero just below the positive one, the undefined value last. -/
def rank (x : Float32) : Int :=
  let bits := x.toBits.toNat
  if bits < signWeight then bits else signWeight - 1 - (bits : Int)

/-- `exp x - 1`. Below one thousandth in size the first terms of the series are more accurate than
the difference. -/
def expMinusOne (x : Float32) : Float32 :=
  let y := x.toFloat
  (if y.abs < 1e-3 then y * (1 + y / 2 * (1 + y / 3 * (1 + y / 4))) else y.exp - 1).toFloat32

instance : Scalar Float32 where
  add := Float32.add
  sub := Float32.sub
  mul := Float32.mul
  div := Float32.div
  neg := Float32.neg
  zero := 0
  one := 1
  natCast := ofNat
  ofScientific := OfScientific.ofScientific
  beq := Float32.beq
  lt := (· < ·)
  le := (· ≤ ·)
  decidableLT := Float32.decLt
  decidableLE := Float32.decLe
  abs := Float32.abs
  isNegative x := decide (signWeight ≤ x.toBits.toNat)
  isFinite := Float32.isFinite
  precedes x y := decide (rank x ≤ rank y)
  sqrt := Float32.sqrt
  exp := Float32.exp
  expMinusOne := expMinusOne
  log := Float32.log
  tanh := Float32.tanh

end NeuralFlow.Single
