import NeuralFlow.EdgeMatrix
import NeuralFlow.Simplex

/-!
Flow weights: for each node the proportions in which it passes flow on. The scores of an edge's ends
are paired to a score of the edge, and the scores of the edges that leave a node are made proportions.
-/

namespace NeuralFlow

/-- How the scores of two nodes make the score of an edge. -/
inductive ScorePairing where
  | product
  | sum
deriving Repr, DecidableEq

namespace ScorePairing

def pair {α : Type} [Scalar α] : ScorePairing → α → α → α
  | .product, src, dst => src * dst
  | .sum, src, dst => src + dst

end ScorePairing

/-- How the scores of a row become proportions. -/
inductive Normalization (α : Type) where
  | softmax
  | sparsemax (epsilon : α)
deriving Repr, DecidableEq

namespace Normalization

def normalizeRow {α : Type} [Scalar α] : Normalization α → List α → List α
  | .softmax => Simplex.softmax
  | .sparsemax epsilon => Simplex.sparsemax epsilon

end Normalization

/-- The way from scores of nodes to proportions on edges. -/
structure WeightRule (α : Type) where
  normalization : Normalization α
  pairing : ScorePairing
deriving Repr, DecidableEq

namespace WeightRule

variable {α : Type} [Scalar α] {M : Type → Type} [EdgeMatrix M]

/-- The paired scores of each edge's ends. -/
def edgeScores (rule : WeightRule α) (adjacency : M α) (scores : List α) : Outcome α (M α) :=
  EdgeMatrix.withValuesM adjacency fun u v _ => do
    let src ← orFault .indexOutOfRange scores[u]?
    let dst ← orFault .indexOutOfRange scores[v]?
    return rule.pairing.pair src dst

def normalize (rule : WeightRule α) (scores : M α) : M α :=
  EdgeMatrix.mapRows scores fun _ _ row => rule.normalization.normalizeRow row

def weights (rule : WeightRule α) (adjacency : M α) (scores : List α) : Outcome α (M α) := do
  if scores.length ≠ EdgeMatrix.numNodes adjacency then
    throw (.dimensionMismatch "node scores" (EdgeMatrix.numNodes adjacency) scores.length)
  return rule.normalize (← rule.edgeScores adjacency scores)

end WeightRule

end NeuralFlow
