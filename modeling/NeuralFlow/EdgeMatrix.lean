import NeuralFlow.FlowError
import NeuralFlow.Grid

/-!
Square matrices whose entries live on a fixed set of directed edges. A backing says how values are
stored; everything else goes through two things: the edges in row order, and giving them new values
in that order. So every operation here keeps the pattern of its matrix, and functions given to
it are called once for each edge, in row order.
-/

namespace NeuralFlow

structure Edge (α : Type) where
  src : Nat
  dst : Nat
  value : α
deriving Repr, DecidableEq

class EdgeMatrix (M : Type → Type) where
  backing : Backing
  /-- The matrix with the given edges. Of several values for one edge the last one stays. -/
  ofEdges {α : Type} [Scalar α] : Nat → List (Edge α) → Outcome α (M α)
  numNodes {α : Type} : M α → Nat
  numEdges {α : Type} : M α → Nat
  /-- All edges in row order. -/
  edges {α : Type} : M α → List (Edge α)
  /-- The matrix with new values for its edges, in row order, and zero elsewhere. -/
  refill {α : Type} [Scalar α] : M α → List α → M α
  /-- The matrix with new values for its edges, in row order. What is stored elsewhere stays. -/
  overwrite {α : Type} [Scalar α] : M α → List α → M α
  /-- Whether an edge is there; no answer for positions outside the matrix. -/
  hasEdge? {α : Type} : M α → Nat → Nat → Option Bool
  /-- The value at a position, zero where no edge is; no answer outside the matrix. -/
  get? {α : Type} [Scalar α] : M α → Nat → Nat → Option α
  rowDegree? {α : Type} : M α → Nat → Option Nat
  /-- Whether two matrices store their values at the same places. -/
  sameLayout {α : Type} : M α → M α → Bool
  /-- For each node the sum of the values on its outgoing edges. -/
  rowSums {α : Type} [Scalar α] : M α → List α
  /-- For each node the sum of the values on its incoming edges. -/
  colSums {α : Type} [Scalar α] : M α → List α
  /-- The product with a table that has a line for each node. -/
  times {α : Type} [Scalar α] : M α → Grid α → Outcome α (Grid α)
  /-- All entries, with zeros off the pattern. -/
  toGrid {α : Type} [Scalar α] : M α → Grid α

namespace EdgeMatrix

variable {M : Type → Type} [EdgeMatrix M] {α : Type}

def hasEdge (a : M α) (u v : Nat) : Bool := (hasEdge? a u v).getD false

def pattern (a : M α) : List (Nat × Nat) := (edges a).map fun e => (e.src, e.dst)

/-- Whether two matrices have the same nodes and the same edges. The counts are compared first, so
that it is enough to find the edges of one matrix in the other. -/
def samePattern (a b : M α) : Bool :=
  numNodes a == numNodes b && numEdges a == numEdges b &&
    (edges a).all fun e => hasEdge b e.src e.dst

/-- `new` with the length of `old`: cut, or filled up from the end of `old`. -/
def fitTo {β : Type} (old new : List β) : List β := new.take old.length ++ old.drop new.length

theorem length_fitTo {β : Type} (old new : List β) : (fitTo old new).length = old.length := by
  simp [fitTo]; omega

theorem fitTo_of_length_eq {β : Type} {old new : List β} (h : new.length = old.length) :
    fitTo old new = new := by
  simp [fitTo, ← h, ← List.length_eq_zero_iff]

section Numbers

variable [Scalar α] {m : Type → Type} [Monad m]

def withValuesM (a : M α) (f : Nat → Nat → α → m α) : m (M α) := do
  let values ← (edges a).mapM fun e => f e.src e.dst e.value
  return refill a values

def withValues (a : M α) (f : Nat → Nat → α → α) : M α :=
  refill a ((edges a).map fun e => f e.src e.dst e.value)

def map (a : M α) (f : α → α) : M α := withValues a fun _ _ x => f x

def layoutsDiffer (a b : M α) : FlowError α :=
  .dimensionMismatch ((backing M).name ++ " zip_map (edge pattern)") (numEdges a) (numEdges b)

/-- Visits the edges of two matrices with one pattern side by side. -/
def zipMapM (a b : M α) (f : α → α → m α) : Outcome α (m (M α)) :=
  if sameLayout a b then
    .ok do
      let values ← (List.zip (edges a) (edges b)).mapM fun e => f e.1.value e.2.value
      return refill a values
  else .error (layoutsDiffer a b)

def zipMap (a b : M α) (f : α → α → α) : Outcome α (M α) :=
  if sameLayout a b then
    .ok (refill a (List.zipWith (fun d e => f d.value e.value) (edges a) (edges b)))
  else .error (layoutsDiffer a b)

/-- Each value times the factor of its row. -/
def scaleRows (a : M α) (factors : List α) : Outcome α (M α) :=
  withValuesM a fun u _ x => do
    let factor ← orFault .indexOutOfRange factors[u]?
    return x * factor

/-- The value of the opposite edge at every edge, zero where there is none. -/
def reverse (a : M α) : M α := withValues a fun u v _ => (get? a v u).getD 0

def row (a : M α) (u : Nat) : List (Edge α) := (edges a).filter (·.src == u)

omit [Scalar α] in
theorem mem_row_iff {a : M α} {u : Nat} {e : Edge α} : e ∈ row a u ↔ e ∈ edges a ∧ e.src = u := by
  rw [row, List.mem_filter, beq_iff_eq]

/-- Visits the rows that have edges, with the ends and values of their edges. -/
def mapRowsM (a : M α) (f : Nat → List Nat → List α → m (List α)) : m (M α) := do
  let rows ← (List.range (numNodes a)).mapM fun u => do
    match row a u with
    | [] => return []
    | es =>
      let values := es.map Edge.value
      return fitTo values (← f u (es.map Edge.dst) values)
  return overwrite a rows.flatten

def mapRows (a : M α) (f : Nat → List Nat → List α → List α) : M α :=
  overwrite a <| (List.range (numNodes a)).flatMap fun u =>
    match row a u with
    | [] => []
    | es => let values := es.map Edge.value; fitTo values (f u (es.map Edge.dst) values)

/-- The sum of a quantity over all edges, in row order. -/
def sumEdges (a : M α) (f : Nat → Nat → α → α) : α :=
  Scalar.runningSum ((edges a).map fun e => f e.src e.dst e.value)

end Numbers

end EdgeMatrix

end NeuralFlow
