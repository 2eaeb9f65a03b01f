import NeuralFlow.FlowError
import NeuralFlow.Grid

/-!
Affine layers. A layer turns every line of a table into a line of another width, each on its own.
-/

namespace NeuralFlow

/-- A layer with a line of weights for each of its outputs, and an offset for each. -/
structure Affine (α : Type) where
  weights : Grid α
  offsets : List α
deriving DecidableEq

namespace Affine

variable {α : Type} [Scalar α]

def outputWidth (layer : Affine α) : Nat := layer.weights.rows

/-- The weighted sums of every line, plus the offsets. -/
def apply (layer : Affine α) (x : Grid α) : Outcome α (Grid α) := do
  let sums ← orFault .shapesDiffer (x.timesTransposed? layer.weights)
  orFault .shapesDiffer (sums.combine? (· + ·) (.ofLine layer.offsets))

section Draw

variable {σ : Type} (next : StateM σ α)

/-- Draws a line of the given width. -/
def drawLine : (width : Nat) → StateM σ { line : List α // line.length = width }
  | 0 => return ⟨[], rfl⟩
  | width + 1 => do
    let x ← next
    let ⟨line, h⟩ ← drawLine width
    return ⟨x :: line, by simp [h]⟩

/-- Draws lines of the given width. -/
def drawLines (width : Nat) :
    Nat → StateM σ { lines : List (List α) // ∀ line ∈ lines, line.length = width }
  | 0 => return ⟨[], by simp⟩
  | rows + 1 => do
    let ⟨line, h⟩ ← drawLine next width
    let ⟨lines, hs⟩ ← drawLines width rows
    return ⟨line :: lines, by simpa [h] using hs⟩

/-- The spread of the weights of a new layer: it falls with the widths of both sides. -/
def spread (inputs outputs : Nat) : α :=
  Scalar.sqrt (2.0 / (max (inputs + outputs) 1 : Nat))

/-- A new layer: weights from scaled samples, offsets zero. -/
def draw (inputs outputs : Nat) : StateM σ (Affine α) := do
  let ⟨lines, h⟩ ← drawLines (do return (← next) * spread inputs outputs) inputs outputs
  return ⟨⟨inputs, lines, h⟩, List.replicate outputs 0⟩

end Draw

end Affine

end NeuralFlow
