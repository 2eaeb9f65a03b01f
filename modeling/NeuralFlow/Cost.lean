import NeuralFlow.EdgeMatrix

/-!
Convex costs of the flow on an edge. Each family comes with its marginal cost and the inverse of it,
so that the positive part of `inverseDerivative y` is the flow at which `apply x - y * x` is least.
-/

namespace NeuralFlow

inductive CostFamily where
  | quadratic
  | cubic
  /-- An exponential that goes on as a parabola where it would grow too large. -/
  | exponential
deriving Repr, DecidableEq

namespace CostFamily

def name : CostFamily → String
  | .quadratic => "quadratic"
  | .cubic => "cubic"
  | .exponential => "exp"

def ofName {α : Type} (word : String) : Outcome α CostFamily :=
  match word.toLower with
  | "quadratic" | "square" => .ok .quadratic
  | "cubic" | "cube" => .ok .cubic
  | "exp" | "exponential" => .ok .exponential
  | other => .error (.unknownCost other)

end CostFamily

/-- A family of cost functions with its scale. -/
structure CostFunction (α : Type) where
  family : CostFamily
  constant : α
deriving Repr, DecidableEq

namespace CostFunction

variable {α : Type} [Scalar α]

/-- A lower bound on values whose logarithm is taken, and an addend of capacities. -/
def smallNumber : α := 1e-7

/-- The scaled flow from which the exponential cost is a parabola. -/
def tailStart : α := 20.0

def congestion : α := 0.15

/-- The scale must be positive and finite. -/
def validate (cost : CostFunction α) : Outcome α Unit :=
  if !Scalar.isFinite cost.constant ∨ cost.constant ≤ 0 then
    .error (.costConstantNotPositive cost.constant)
  else .ok ()

def ofFamily (family : CostFamily) (constant : α) : Outcome α (CostFunction α) := do
  let cost : CostFunction α := ⟨family, constant⟩
  cost.validate
  return cost

def apply (cost : CostFunction α) (x : α) : α :=
  let c := cost.constant
  match cost.family with
  | .quadratic => c * x * x
  | .cubic => c * Scalar.cube (Scalar.abs x)
  | .exponential =>
    let t := c * x
    if t ≤ tailStart then Scalar.expMinusOne t
    else
      let d := t - tailStart
      Scalar.expMinusOne tailStart + Scalar.exp tailStart * (d + 0.5 * d * d)

def derivative (cost : CostFunction α) (x : α) : α :=
  let c := cost.constant
  match cost.family with
  | .quadratic => 2.0 * c * x
  | .cubic => 3.0 * c * x * Scalar.abs x
  | .exponential =>
    let t := c * x
    if t ≤ tailStart then c * Scalar.exp t
    else c * Scalar.exp tailStart * (1 + t - tailStart)

/-- The flow with a given marginal cost, negative where the flow would be below zero. -/
def inverseDerivative (cost : CostFunction α) (y : α) : α :=
  let c := cost.constant
  match cost.family with
  | .quadratic => y / (2.0 * c)
  | .cubic => Scalar.signum y * Scalar.sqrt (Scalar.abs y / (3.0 * c))
  | .exponential =>
    let tailSlope := c * Scalar.exp tailStart
    if y ≤ tailSlope then Scalar.log (Scalar.larger y smallNumber / c) / c
    else (tailStart + y / tailSlope - 1) / c

/-- The cost of a flow that comes near a capacity. -/
def applyWithCapacity (cost : CostFunction α) (x capacity : α) : α :=
  let ratio := x / (capacity + smallNumber)
  cost.apply x * (1 + congestion * Scalar.fourth ratio)

variable {M : Type → Type} [EdgeMatrix M]

def total (cost : CostFunction α) (flow : M α) : α :=
  EdgeMatrix.sumEdges flow fun _ _ x => cost.apply x

def totalWithCapacities (cost : CostFunction α) (flow capacities : M α) : Outcome α α := do
  let costs ← EdgeMatrix.zipMap flow capacities cost.applyWithCapacity
  return EdgeMatrix.sumEdges costs fun _ _ x => x

end CostFunction

end NeuralFlow
