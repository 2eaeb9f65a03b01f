import NeuralFlow.EdgeMatrix

/-!
Operations on a flow, which is an edge matrix whose values say how much goes along each edge: how far
it is from conserving, its part within capacities, and its part without opposite flow.
-/

namespace NeuralFlow.Flow

variable {M : Type → Type} [EdgeMatrix M] {α : Type} [Scalar α]

/-- For each node what flows out less what flows in less its demand. One demand stands for all
nodes. -/
def imbalance (flow : M α) (demands : List α) : Outcome α (List α) := do
  let net := List.zipWith (· - ·) (EdgeMatrix.rowSums flow) (EdgeMatrix.colSums flow)
  orFault .shapesDiffer (combine (· - ·) net demands)

/-- The size of the largest imbalance; zero exactly for flows that conserve. -/
def residual (flow : M α) (demands : List α) : Outcome α α := do
  let balance ← imbalance flow demands
  return (balance.map Scalar.abs).foldl Scalar.larger 0

/-- The flow cut to the range from zero to the capacities. -/
def clip (flow capacities : M α) : Outcome α (M α) :=
  EdgeMatrix.zipMap flow capacities fun x capacity =>
    Scalar.smaller (Scalar.larger x 0) capacity

/-- The smaller of two values, as half of their sum less their distance. -/
def common (a b : α) : α := 0.5 * (a + b - Scalar.abs (a - b))

/-- Takes from both edges of a mutual pair what they have in common. The net flow between the two
nodes stays, and edges without an opposite edge keep their flow. -/
def cancelReciprocal (flow : M α) : Outcome α (M α) :=
  EdgeMatrix.zipMap flow (EdgeMatrix.reverse flow) fun a b => Scalar.relu (a - common a b)

end NeuralFlow.Flow
