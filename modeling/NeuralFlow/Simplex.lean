import NeuralFlow.Scalar

/-!
Maps from rows of scores to rows of proportions. `softmax` weighs scores exponentially, `sparsemax`
takes the nearest point of the probability simplex and then drops small entries.
-/

namespace NeuralFlow.Simplex

variable {α : Type} [Scalar α]

/-- The least denominator of a proportion. -/
def denominatorGuard : α := 1e-10

/-- Exponentials of the scores, relative to the largest one, over their sum. -/
def softmax : List α → List α
  | [] => []
  | x :: xs =>
    let top := Scalar.maximum x xs
    let weights := (x :: xs).map fun z => Scalar.exp (z - top)
    let sum := Scalar.larger (Scalar.runningSum weights) denominatorGuard
    weights.map (· / sum)

/-- Puts a value into a list that falls from left to right. -/
def insertFalling (z : α) : List α → List α
  | [] => [z]
  | y :: ys => if Scalar.precedes z y then y :: insertFalling z ys else z :: y :: ys

def sortFalling (zs : List α) : List α := zs.foldr insertFalling []

/-- A part of a falling list, from its start: how many values it has, and their sum. -/
structure Support (α : Type) where
  count : Nat
  sum : α

/-- The longest admissible start of a falling list: the last value `z` of `k` must satisfy
`sum < 1 + k * z`. `seen` is the start that was already looked at, `best` the longest admissible
one so far. -/
def supportFrom (seen best : Support α) : List α → Support α
  | [] => best
  | z :: zs =>
    let now : Support α := ⟨seen.count + 1, seen.sum + z⟩
    supportFrom now (if now.sum < 1 + (now.count : α) * z then now else best) zs

/-- The longest admissible start of a falling list. -/
def support (zs : List α) : Support α := supportFrom ⟨0, 0⟩ ⟨0, 0⟩ zs

/-- The number that scores are lowered by so that their positive parts add up to one. -/
def threshold (zs : List α) : α :=
  let s := support (sortFalling zs)
  (s.sum - 1) / (max s.count 1 : Nat)

/-- The positive parts of the lowered scores. -/
def project (zs : List α) : List α :=
  let tau := threshold zs
  zs.map fun z => Scalar.relu (z - tau)

/-- Drops proportions below `epsilon` and scales the others to the sum one. If none is left, all
proportions are scaled. -/
def prune (epsilon : α) (ps : List α) : List α :=
  let kept := Scalar.runningSum (ps.filter fun p => decide (epsilon ≤ p))
  if 0 < kept then ps.map fun p => if epsilon ≤ p then p / kept else 0
  else
    let sum := Scalar.larger (Scalar.runningSum ps) denominatorGuard
    ps.map (· / sum)

/-- The nearest point of the simplex, with entries below `epsilon` dropped. -/
def sparsemax (epsilon : α) (zs : List α) : List α := prune epsilon (project zs)

theorem length_softmax (zs : List α) : (softmax zs).length = zs.length := by
  cases zs <;> simp [softmax]

theorem length_prune (epsilon : α) (ps : List α) : (prune epsilon ps).length = ps.length := by
  unfold prune; dsimp only; split <;> simp

theorem length_sparsemax (epsilon : α) (zs : List α) :
    (sparsemax epsilon zs).length = zs.length := by
  simp [sparsemax, length_prune, project]

end NeuralFlow.Simplex
