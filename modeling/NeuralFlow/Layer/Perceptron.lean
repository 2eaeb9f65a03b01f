import NeuralFlow.Layer.Affine

/-!
Stacks of affine layers with `tanh` between them.
-/

namespace NeuralFlow

/-- Layers applied one after the other. -/
structure Perceptron (α : Type) where
  layers : List (Affine α)
  /-- Whether `tanh` follows the last layer too. -/
  activateFinal : Bool
deriving DecidableEq

namespace Perceptron

variable {α : Type} [Scalar α]

/-- The layers one after the other, with `tanh` after each but the last, and after the last one if
`final` asks for it. -/
def run (final : Bool) : List (Affine α) → Grid α → Outcome α (Grid α)
  | [], x => .ok x
  | layer :: layers, x => do
    let y ← layer.apply x
    run final layers (if final || !layers.isEmpty then y.map Scalar.tanh else y)

def apply (p : Perceptron α) (x : Grid α) : Outcome α (Grid α) := run p.activateFinal p.layers x

def outputWidth (p : Perceptron α) : Nat := p.layers.getLast?.elim 0 Affine.outputWidth

variable {σ : Type} (next : StateM σ α)

/-- New layers that lead from one width through others. -/
def drawLayers : Nat → List Nat → StateM σ (List (Affine α))
  | _, [] => return []
  | inputs, outputs :: widths => do
    let layer ← Affine.draw next inputs outputs
    return layer :: (← drawLayers outputs widths)

/-- A new stack with the given widths. -/
def draw (inputs : Nat) (hidden : List Nat) (outputs : Nat) (activateFinal : Bool) :
    StateM σ (Perceptron α) := do
  let layers ← drawLayers next inputs (hidden ++ [outputs])
  return { layers, activateFinal }

end Perceptron

end NeuralFlow
