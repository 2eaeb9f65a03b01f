/-!
The arithmetic the library computes with. `Scalar` names the operations and assumes no law about
them, so the same definitions run on single precision numbers and can be read over a field. The
order in which a sum is taken is part of a definition: `runningSum` goes from left to right,
`laneSum` in eight interleaved lanes.
-/

namespace NeuralFlow

/-- The operations of a number type. Comparisons are decided; nothing is assumed about them. -/
class Scalar (α : Type) extends Add α, Sub α, Mul α, Div α, Neg α, Zero α, One α, NatCast α,
    OfScientific α, BEq α, LT α, LE α where
  decidableLT : DecidableLT α
  decidableLE : DecidableLE α
  abs : α → α
  /-- Whether the sign is minus; a number type may have a negative zero. -/
  isNegative : α → Bool
  /-- Whether the value is an ordinary number, neither infinite nor undefined. -/
  isFinite : α → Bool
  /-- A total order of all values, used where values are sorted. -/
  precedes : α → α → Bool
  sqrt : α → α
  exp : α → α
  /-- `exp x - 1`, accurate near zero. -/
  expMinusOne : α → α
  log : α → α
  tanh : α → α

attribute [reducible, instance] Scalar.decidableLT Scalar.decidableLE

namespace Scalar

variable {α : Type} [Scalar α]

/-- The larger of two values, the second one if neither is. An undefined value gives way to the other
one. -/
def larger (x y : α) : α :=
  if y < x then x else if y == y then y else x

/-- The smaller of two values, the second one if neither is. An undefined value gives way to the
other one. -/
def smaller (x y : α) : α :=
  if x < y then x else if y == y then y else x

/-- The positive part of a value. -/
def relu (x : α) : α := larger x 0

/-- One with the sign of `x`; an undefined value stays as it is. -/
def signum (x : α) : α :=
  if x == x then (if isNegative x then -1 else 1) else x

def cube (x : α) : α := x * x * x

/-- The fourth power, as the square of the square. -/
def fourth (x : α) : α := x * x * (x * x)

/-- The sum of a list from left to right, starting at zero. -/
def runningSum (xs : List α) : α := xs.foldl (· + ·) 0

/-- The eight partial sums over the complete blocks of eight elements: lane `i` adds up the
elements at the positions `i`, `i + 8`, `i + 16`, … -/
def lanes (xs : List α) : List α :=
  (List.range (xs.length / 8)).foldl
    (fun acc block => List.zipWith (· + ·) acc ((xs.drop (8 * block)).take 8))
    (List.replicate 8 0)

/-- The sum of a list in eight lanes: complete blocks go to the lanes, opposite lanes are joined
and added up, and the elements of the last incomplete block follow one by one. -/
def laneSum (xs : List α) : α :=
  let joined := List.zipWith (· + ·) ((lanes xs).take 4) ((lanes xs).drop 4)
  (xs.drop (8 * (xs.length / 8))).foldl (· + ·) (runningSum joined)

/-- The inner product of two lists, added up in lanes. -/
def dot (xs ys : List α) : α := laneSum (List.zipWith (· * ·) xs ys)

/-- The largest value of a non-empty list. -/
def maximum (x : α) (xs : List α) : α := xs.foldl larger x

theorem runningSum_append_singleton (xs : List α) (x : α) :
    runningSum (xs ++ [x]) = runningSum xs + x := by
  simp [runningSum]

end Scalar

end NeuralFlow
