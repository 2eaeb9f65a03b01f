import NeuralFlow.Cost

/-!
Lower bounds on the cost of a conserving flow. Each node gets a potential that prices its imbalance.
For fixed potentials every edge chooses its flow on its own, where its cost less its price difference
is least, and the value at these flows bounds the cost of every conserving flow from below. Ascent
with momentum moves the potentials along the imbalance of the chosen flows.
-/

namespace NeuralFlow

/-- How to ascend: the cost of flow, the number of rounds, the step size, and the part of the last
move that is kept. -/
structure DualAscent (α : Type) where
  cost : CostFunction α
  rounds : Nat
  step : α
  momentum : α

namespace DualAscent

variable {M : Type → Type} [EdgeMatrix M] {α : Type} [Scalar α]

/-- The price difference on each edge, and the flow each edge chooses. -/
structure Response (M : Type → Type) (α : Type) where
  differences : M α
  flow : M α

structure Solution (M : Type → Type) (α : Type) where
  potentials : List α
  response : Response M α
  cost : α
  gradientNorm : α
  rounds : Nat

/-- Where an ascent stands: the potentials and their last move. -/
structure State (α : Type) where
  potentials : List α
  velocity : List α

/-- The flow that is cheapest at a price difference. -/
def chosenFlow (cost : CostFunction α) (difference : α) : α :=
  Scalar.relu (cost.inverseDerivative difference)

/-- The response of the edges to potentials. -/
def respond (cost : CostFunction α) (adjacency : M α) (potentials : List α) :
    Outcome α (Response M α) := do
  let differences ← EdgeMatrix.withValuesM adjacency fun u v _ => do
    let src ← orFault .indexOutOfRange potentials[u]?
    let dst ← orFault .indexOutOfRange potentials[v]?
    return src - dst
  return { differences, flow := EdgeMatrix.map differences (chosenFlow cost) }

/-- The value of the response: costs less prices on the edges, and the prices of the demands. -/
def lagrangian (cost : CostFunction α) (r : Response M α) (demands potentials : List α) : α :=
  EdgeMatrix.sumEdges r.flow
    (fun u v x => cost.apply x - (EdgeMatrix.get? r.differences u v).getD 0 * x) +
    Scalar.dot potentials demands

/-- For each node what flows in less what flows out plus its demand. -/
def gradient (flow : M α) (demands : List α) : List α :=
  List.zipWith (· + ·)
    (List.zipWith (· - ·) (EdgeMatrix.colSums flow) (EdgeMatrix.rowSums flow)) demands

/-- There must be a demand and a potential for each node. -/
def checkLengths (nodes : Nat) (demands potentials : List α) : Outcome α Unit :=
  if demands.length ≠ nodes then .error (.dimensionMismatch "demands" nodes demands.length)
  else if potentials.length ≠ nodes then
    .error (.dimensionMismatch "potentials" nodes potentials.length)
  else .ok ()

def bound (cost : CostFunction α) (adjacency : M α) (demands potentials : List α) :
    Outcome α α := do
  checkLengths (EdgeMatrix.numNodes adjacency) demands potentials
  let r ← respond cost adjacency potentials
  return lagrangian cost r demands potentials

def advance (a : DualAscent α) (adjacency : M α) (demands : List α) (s : State α) :
    Outcome α (State α) := do
  let r ← respond a.cost adjacency s.potentials
  let velocity := List.zipWith (fun v g => a.momentum * v + a.step * g) s.velocity
    (gradient r.flow demands)
  return { velocity, potentials := List.zipWith (· + ·) s.potentials velocity }

def solve (a : DualAscent α) (adjacency : M α) (demands initial : List α) :
    Outcome α (Solution M α) := do
  checkLengths (EdgeMatrix.numNodes adjacency) demands initial
  let last ← iterate (a.advance adjacency demands) a.rounds
    { potentials := initial, velocity := List.replicate initial.length 0 }
  let response ← respond a.cost adjacency last.potentials
  let slope := gradient response.flow demands
  return {
    potentials := last.potentials
    response
    cost := lagrangian a.cost response demands last.potentials
    gradientNorm := Scalar.sqrt (Scalar.dot slope slope)
    rounds := a.rounds }

end DualAscent

end NeuralFlow
