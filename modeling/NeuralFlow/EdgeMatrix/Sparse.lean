import NeuralFlow.EdgeMatrix

/-!
Matrices in compressed rows. The entries of row `r` stand in the slots from `rowPtr[r]` up to
`rowPtr[r + 1]`, with their columns rising; entries off the pattern are not stored. A square matrix of
this kind is a sparse edge matrix.
-/

namespace NeuralFlow

structure SparseMatrix (α : Type) where
  rows : Nat
  cols : Nat
  rowPtr : List Nat
  colIndices : List Nat
  values : List α
deriving Repr, DecidableEq

namespace SparseMatrix

variable {α : Type}

/-- Whether one position comes before another one in row order. -/
def precedes (d e : Edge α) : Bool := d.src < e.src || (d.src == e.src && d.dst < e.dst)

/-- What a pass over entries in row order has stored. The number of entries of a row stands one place
further on in `counts`, at the pointer to its end; columns and values have the latest one first. -/
structure Stored (α : Type) where
  counts : List Nat
  columns : List Nat
  values : List α
  last : Option (Nat × Nat)

/-- Stores one more entry. Where its position is that of the last one, only the value changes. -/
def Stored.push (rows cols : Nat) (s : Stored α) (e : Edge α) : Outcome α (Stored α) :=
  if rows ≤ e.src || cols ≤ e.dst then .error (.entryOutOfBounds e.src e.dst rows cols)
  else if s.last == some (e.src, e.dst) then
    .ok { s with values := s.values.modifyHead fun _ => e.value }
  else
    .ok {
      counts := s.counts.modify (e.src + 1) (· + 1)
      columns := e.dst :: s.columns
      values := e.value :: s.values
      last := some (e.src, e.dst) }

/-- The sums of all numbers up to each one, on top of a total. -/
def runningTotals (total : Nat) : List Nat → List Nat
  | [] => []
  | n :: rest => (total + n) :: runningTotals (total + n) rest

/-- The entries by position, those of one position in the order in which they are given. -/
def sortEntries (entries : List (Edge α)) : List (Edge α) :=
  entries.mergeSort fun d e => !precedes e d

/-- The matrix with the given entries, the last one of each position. The first position in row order
that lies outside is refused. -/
def ofEntries (rows cols : Nat) (entries : List (Edge α)) : Outcome α (SparseMatrix α) := do
  let stored ← (sortEntries entries).foldlM (Stored.push rows cols)
    { counts := List.replicate (rows + 1) 0, columns := [], values := [], last := none }
  return {
    rows := rows
    cols := cols
    rowPtr := runningTotals 0 stored.counts
    colIndices := stored.columns.reverse
    values := stored.values.reverse }

/-- The part of a list that belongs to the slots of a row. -/
def slots? {β : Type} (a : SparseMatrix α) (r : Nat) (xs : List β) : Option (List β) := do
  let start ← a.rowPtr[r]?
  let stop ← a.rowPtr[r + 1]?
  return (xs.drop start).take (stop - start)

def rowEntries? (a : SparseMatrix α) (r : Nat) : Option (List (Nat × α)) :=
  a.slots? r (a.colIndices.zip a.values)

/-- The place of a number in a rising list, found by halving. -/
def binarySearch? (xs : List Nat) (x : Nat) : Option Nat :=
  match _ : xs.drop (xs.length / 2) with
  | [] => none
  | y :: upper =>
    if x = y then some (xs.length / 2)
    else if x < y then binarySearch? (xs.take (xs.length / 2)) x
    else (binarySearch? upper x).map (xs.length / 2 + 1 + ·)
termination_by xs.length
decreasing_by all_goals
  have := congrArg List.length ‹_ = y :: upper›
  simp only [List.length_drop, List.length_take, List.length_cons] at this ⊢
  omega

/-- The slot of a position, if it is stored; no answer for rows outside the matrix. -/
def position? (a : SparseMatrix α) (r c : Nat) : Option (Option Nat) := do
  let columns ← a.slots? r a.colIndices
  let start ← a.rowPtr[r]?
  return (binarySearch? columns c).map (start + ·)

def edges (a : SparseMatrix α) : List (Edge α) :=
  (List.range a.rows).flatMap fun u =>
    ((a.rowEntries? u).getD []).map fun (v, x) => ⟨u, v, x⟩

def refill (a : SparseMatrix α) (new : List α) : SparseMatrix α :=
  { a with values := EdgeMatrix.fitTo a.values new }

section Numbers

variable [Scalar α]

/-- The square matrix with ones on its diagonal. -/
def identity (n : Nat) : SparseMatrix α where
  rows := n
  cols := n
  rowPtr := List.range (n + 1)
  colIndices := List.range n
  values := List.replicate n 1

/-- The square matrix with the given edges. Values are checked before positions. -/
def ofEdges (n : Nat) (es : List (Edge α)) : Outcome α (SparseMatrix α) :=
  match es.find? fun e => !Scalar.isFinite e.value with
  | some e => .error (.edgeNotFinite e.src e.dst e.value)
  | none => ofEntries n n es

/-- The value at a position, zero where nothing is stored. -/
def get? (a : SparseMatrix α) (r c : Nat) : Option α :=
  (a.position? r c).map fun slot => (slot.bind fun k => a.values[k]?).getD 0

def rowSums (a : SparseMatrix α) : List α :=
  (List.range a.rows).map fun r => Scalar.runningSum ((a.slots? r a.values).getD [])

/-- For each column the sum of its entries, in row order. -/
def colSums (a : SparseMatrix α) : List α :=
  (List.range a.cols).map fun c =>
    Scalar.runningSum ((a.colIndices.zip a.values).filterMap fun (d, x) =>
      if d = c then some x else none)

/-- A line of the product: the lines of `x` at the columns of the row, each times its entry. -/
def timesRow (x : Grid α) (entries : List (Nat × α)) : Outcome α (List α) :=
  entries.foldlM
    (fun sums (c, w) => do
      let line ← orFault .indexOutOfRange x.lines[c]?
      return List.zipWith (fun sum y => sum + w * y) sums line)
    (List.replicate x.cols 0)

/-- The product with a table. Only the lines of `x` that a stored column names are looked up. -/
def times (a : SparseMatrix α) (x : Grid α) : Outcome α (Grid α) := do
  let lines ← (List.range a.rows).mapM fun r => timesRow x ((a.rowEntries? r).getD [])
  orFault .shapesDiffer (Grid.ofLines? x.cols lines)

def toGrid (a : SparseMatrix α) : Grid α :=
  Grid.ofFn a.rows a.cols fun r c => (a.get? r c).getD 0

end Numbers

instance : EdgeMatrix SparseMatrix where
  backing := .sparse
  ofEdges := ofEdges
  numNodes a := a.rows
  numEdges a := a.values.length
  edges := edges
  refill := refill
  overwrite := refill
  hasEdge? a u v := (a.position? u v).map Option.isSome
  get? := get?
  rowDegree? a u := do
    let start ← a.rowPtr[u]?
    let stop ← a.rowPtr[u + 1]?
    return stop - start
  sameLayout a b := a.rowPtr == b.rowPtr && a.colIndices == b.colIndices
  rowSums := rowSums
  colSums := colSums
  times := times
  toGrid := toGrid

end SparseMatrix

end NeuralFlow
