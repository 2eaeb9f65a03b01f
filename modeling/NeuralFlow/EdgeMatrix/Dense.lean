import NeuralFlow.EdgeMatrix

/-!
Edge matrices with a cell for every pair of nodes. A cell is marked when its pair is an edge; cells
without a mark hold a zero of either sign, so sums may run over all of them.
-/

namespace NeuralFlow

/-- A place of a dense matrix. -/
structure Cell (α : Type) where
  marked : Bool
  value : α
deriving Repr, DecidableEq

structure DenseMatrix (α : Type) where
  cells : Grid (Cell α)

namespace DenseMatrix

variable {α : Type}

def values (a : DenseMatrix α) : Grid α := a.cells.map Cell.value

def mask (a : DenseMatrix α) : Grid Bool := a.cells.map Cell.marked

/-- The edges of a line of cells. -/
def lineEdges (u : Nat) (line : List (Cell α)) : List (Edge α) :=
  line.zipIdx.filterMap fun (cell, v) => if cell.marked then some ⟨u, v, cell.value⟩ else none

def edges (a : DenseMatrix α) : List (Edge α) :=
  a.cells.lines.zipIdx.flatMap fun (line, u) => lineEdges u line

/-- A line of cells with new values for the marked ones, and the values left over. `off` is applied
to the other cells. -/
def refillLine (off : Cell α → Cell α) : List (Cell α) → List α → List (Cell α) × List α
  | [], new => ([], new)
  | cell :: line, new =>
    if cell.marked then
      let (rest, left) := refillLine off line (new.drop 1)
      (⟨true, new.headD cell.value⟩ :: rest, left)
    else
      let (rest, left) := refillLine off line new
      (off cell :: rest, left)

/-- Lines of cells with new values for the marked ones. -/
def refillLines (off : Cell α → Cell α) : List (List (Cell α)) → List α → List (List (Cell α))
  | [], _ => []
  | line :: lines, new =>
    let (refilled, left) := refillLine off line new
    refilled :: refillLines off lines left

theorem length_refillLine (off : Cell α → Cell α) (line : List (Cell α)) (new : List α) :
    (refillLine off line new).1.length = line.length := by
  induction line generalizing new with
  | nil => rfl
  | cons cell line ih => unfold refillLine; split <;> simp [ih]

theorem length_of_mem_refillLines {w : Nat} {lines : List (List (Cell α))}
    (h : ∀ line ∈ lines, line.length = w) (off : Cell α → Cell α) (new : List α) :
    ∀ line ∈ refillLines off lines new, line.length = w := by
  induction lines generalizing new with
  | nil => simp [refillLines]
  | cons line lines ih =>
    intro l hl
    rcases List.mem_cons.1 hl with rfl | hl
    · rw [length_refillLine]; exact h line (by simp)
    · exact ih (fun k hk => h k (by simp [hk])) _ l hl

/-- The matrix with new values for its edges and `off` applied to the other cells. -/
def refillWith (off : Cell α → Cell α) (a : DenseMatrix α) (new : List α) : DenseMatrix α where
  cells :=
    { cols := a.cells.cols
      lines := refillLines off a.cells.lines new
      width_eq := length_of_mem_refillLines a.cells.width_eq off new }

section Numbers

variable [Scalar α]

def blank : Cell α := ⟨false, 0⟩

/-- Takes one edge into the cells, if it lies inside and its value is finite. -/
def place (n : Nat) (cells : Grid (Cell α)) (e : Edge α) : Outcome α (Grid (Cell α)) :=
  if n ≤ e.src ∨ n ≤ e.dst then .error (.edgeOutOfBounds e.src e.dst n)
  else if !Scalar.isFinite e.value then .error (.edgeNotFinite e.src e.dst e.value)
  else .ok (cells.set e.src e.dst ⟨true, e.value⟩)

/-- The matrix with the given edges, which are taken in one by one. -/
def ofEdges (n : Nat) (es : List (Edge α)) : Outcome α (DenseMatrix α) := do
  return ⟨← es.foldlM (place n) (Grid.filled n n blank)⟩

/-- The matrix whose edges are the entries of a square table that are not zero. -/
def ofAdjacency (table : Grid α) : Outcome α (DenseMatrix α) :=
  if table.rows ≠ table.cols then
    .error (.dimensionMismatch "adjacency columns" table.rows table.cols)
  else match table.toList.find? fun x => !Scalar.isFinite x with
    | some x => .error (.entryNotFinite x)
    | none => .ok ⟨table.map fun x => ⟨x != 0, x⟩⟩

/-- The matrix with the given values and marks. Values without a mark become zero. -/
def ofParts (values : Grid α) (mask : Grid Bool) : Outcome α (DenseMatrix α) :=
  if values.rows ≠ mask.rows ∨ values.cols ≠ mask.cols then
    .error (.dimensionMismatch "mask rows" values.rows mask.rows)
  else if values.rows ≠ values.cols then
    .error (.dimensionMismatch "matrix columns" values.rows values.cols)
  else do
    let cell (x : α) (marked : Bool) : Cell α := if marked then ⟨true, x⟩ else blank
    return ⟨← orFault .shapesDiffer (values.combine? cell mask)⟩

def refill (a : DenseMatrix α) (new : List α) : DenseMatrix α := a.refillWith (fun _ => blank) new

/-- The matrix with new values for its edges. Other cells stay, also those with a negative zero. -/
def overwrite (a : DenseMatrix α) (new : List α) : DenseMatrix α := a.refillWith id new

/-- For each node the sum over its line of cells. -/
def rowSums (a : DenseMatrix α) : List α :=
  a.cells.lines.map fun line => Scalar.laneSum (line.map Cell.value)

def colSums (a : DenseMatrix α) : List α :=
  a.cells.lines.foldl (fun sums line => List.zipWith (· + ·) sums (line.map Cell.value))
    (List.replicate a.cells.cols 0)

end Numbers

instance : EdgeMatrix DenseMatrix where
  backing := .dense
  ofEdges := ofEdges
  numNodes a := a.cells.rows
  numEdges a := a.cells.toList.countP Cell.marked
  edges := edges
  refill := refill
  overwrite := overwrite
  hasEdge? a u v := (a.cells.get? u v).map Cell.marked
  get? a u v := (a.cells.get? u v).map Cell.value
  rowDegree? a u := a.cells.lines[u]?.map (List.countP Cell.marked)
  sameLayout a b := a.mask == b.mask
  rowSums := rowSums
  colSums := colSums
  times a x := orFault .shapesDiffer (a.values.times? x)
  toGrid := values

end DenseMatrix

end NeuralFlow
