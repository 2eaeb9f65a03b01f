import NeuralFlow.FlowInstance
import NeuralFlow.Settings

/-!
Checks that run before a model does any work, so that shapes, backings and values that do not fit are
named and not met half way. Demands that do not balance are no error.
-/

namespace NeuralFlow.FlowInstance

variable {M : Type → Type} [EdgeMatrix M] {α : Type} [Scalar α]

/-- The backing must be the one the settings ask for. -/
def checkBacking (M : Type → Type) [EdgeMatrix M] (c : Settings α) : Outcome α Unit :=
  if EdgeMatrix.backing M = c.backing then .ok ()
  else .error (.backingMismatch c.backing (EdgeMatrix.backing M))

/-- There must be a finite demand for each node. -/
def checkDemands (demands : List α) (nodes : Nat) : Outcome α Unit :=
  if demands.length ≠ nodes then .error (.dimensionMismatch "demands" nodes demands.length)
  else match demands.zipIdx.find? fun (d, _) => !Scalar.isFinite d with
    | some (d, i) => .error (.demandNotFinite i d)
    | none => .ok ()

/-- The first entry of a table that is not finite, with its position. -/
def firstNotFinite (table : Grid α) : Option (Nat × Nat × α) :=
  table.lines.zipIdx.findSome? fun (line, r) =>
    (line.zipIdx.find? fun (x, _) => !Scalar.isFinite x).map fun (x, c) => (r, c, x)

/-- A table of inputs needs a line of the given width for each node, and finite entries. -/
def checkNodeInput (what : String) (table : Grid α) (nodes width : Nat) : Outcome α Unit :=
  if table.rows ≠ nodes then .error (.dimensionMismatch (what ++ " rows") nodes table.rows)
  else if table.cols ≠ width then
    .error (.dimensionMismatch (what ++ " columns") width table.cols)
  else match firstNotFinite table with
    | some (r, c, x) => .error (.nodeInputNotFinite what r c x)
    | none => .ok ()

/-- Capacities must have the pattern of the graph, and be positive and finite. -/
def checkCapacities (capacities adjacency : M α) : Outcome α Unit :=
  if !EdgeMatrix.samePattern capacities adjacency then
    .error (.dimensionMismatch "capacity edges" (EdgeMatrix.numEdges adjacency)
      (EdgeMatrix.numEdges capacities))
  else match (EdgeMatrix.edges capacities).find? fun e =>
      !(Scalar.isFinite e.value && decide (0 < e.value)) with
    | some e => .error (.edgeCapacity e.src e.dst e.value)
    | none => .ok ()

/-- All checks of an instance, in this order: backing, demands, neighborhoods, node inputs, and
capacities if they are used. -/
def check (c : Settings α) (i : FlowInstance M α) : Outcome α Unit := do
  checkBacking M c
  let n := i.numNodes
  checkDemands i.demands n
  let hopCount ← c.hopCount
  if i.hops.size ≠ hopCount.toNat then
    throw (.dimensionMismatch "neighborhood hops" hopCount.toNat i.hops.size)
  if i.hops.numNodes ≠ n then
    throw (.dimensionMismatch "neighborhood nodes" n i.hops.numNodes)
  checkNodeInput "embeddings" i.embeddings n c.embeddingWidth.toNat
  checkNodeInput "node features" i.features n c.featureWidth.toNat
  if c.useCapacities then
    match i.capacities with
    | none => throw .capacitiesMissing
    | some capacities => checkCapacities capacities i.adjacency

end NeuralFlow.FlowInstance
