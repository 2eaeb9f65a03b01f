import NeuralFlow.Flow

/-!
Flow by redistribution. From a zero flow, each round lets every node pass on what came in together with
its demand, in the proportions of its weights; a node with nothing left over passes on nothing, and a
node without outgoing edges absorbs. There is no convergence test: a bounded number of rounds comes
near a conserving flow, and the residual tells how near.
-/

namespace NeuralFlow.Redistribution

variable {M : Type → Type} [EdgeMatrix M] {α : Type} [Scalar α]

/-- A flow, the rounds it took, and the size of its largest imbalance. -/
structure Solution (M : Type → Type) (α : Type) where
  flow : M α
  rounds : Nat
  residual : α

/-- For each node what it has to pass on. -/
def excess (demands : List α) (flow : M α) : List α :=
  List.zipWith (fun inflow demand => Scalar.relu (inflow + demand))
    (EdgeMatrix.colSums flow) demands

def push (weights : M α) (demands : List α) (flow : M α) : Outcome α (M α) :=
  EdgeMatrix.scaleRows weights (excess demands flow)

/-- No flow on any edge. -/
def still (weights : M α) : M α := EdgeMatrix.map weights fun _ => 0

def flowAfter (weights : M α) (demands : List α) (rounds : Nat) : Outcome α (M α) :=
  iterate (push weights demands) rounds (still weights)

/-- Runs the rounds. There must be a demand for each node. -/
def solve (rounds : Nat) (weights : M α) (demands : List α) : Outcome α (Solution M α) := do
  if demands.length ≠ EdgeMatrix.numNodes weights then
    throw (.dimensionMismatch "demands" (EdgeMatrix.numNodes weights) demands.length)
  let flow ← flowAfter weights demands rounds
  return { flow, rounds, residual := ← Flow.residual flow demands }

theorem flowAfter_succ (weights : M α) (demands : List α) (k : Nat) :
    flowAfter weights demands (k + 1) = flowAfter weights demands k >>= push weights demands :=
  iterate_succ _ _ _

end NeuralFlow.Redistribution
