/-!
The two ways to store an edge matrix.
-/

namespace NeuralFlow

/-- How the values of an edge matrix are stored. -/
inductive Backing where
  /-- A cell for every pair of nodes. -/
  | dense
  /-- A slot for every edge. -/
  | sparse
deriving Repr, DecidableEq

namespace Backing

def name : Backing → String
  | .dense => "dense"
  | .sparse => "sparse"

end Backing

end NeuralFlow
