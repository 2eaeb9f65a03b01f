import NeuralFlow.Layer.Affine

/-!
Gated recurrent cells. A cell moves the state of every node toward a candidate that it makes of the
node's message and state; gates between zero and one say how far it moves and how much of the state
the candidate sees.
-/

namespace NeuralFlow

/-- The layers of a cell: for each gate and the candidate, one for the message and one for the
state. -/
structure GatedCell (α : Type) where
  updateMessage : Affine α
  updateState : Affine α
  resetMessage : Affine α
  resetState : Affine α
  candidateMessage : Affine α
  candidateState : Affine α
deriving DecidableEq

namespace GatedCell

variable {α : Type} [Scalar α]

/-- The logistic function. No exponential of a positive value is taken. -/
def logistic (x : α) : α :=
  if 0 < x then 1 / (1 + Scalar.exp (-x))
  else
    let e := Scalar.exp x
    e / (1 + e)

def plus (a b : Grid α) : Outcome α (Grid α) := orFault .shapesDiffer (a.combine? (· + ·) b)

def times (a b : Grid α) : Outcome α (Grid α) := orFault .shapesDiffer (a.combine? (· * ·) b)

/-- The joint response of two layers to a message and a state. -/
def respond (forMessage forState : Affine α) (message state : Grid α) : Outcome α (Grid α) := do
  plus (← forMessage.apply message) (← forState.apply state)

def apply (cell : GatedCell α) (message state : Grid α) : Outcome α (Grid α) := do
  let update := (← respond cell.updateMessage cell.updateState message state).map logistic
  let reset := (← respond cell.resetMessage cell.resetState message state).map logistic
  let candidate := (← respond cell.candidateMessage cell.candidateState message
    (← times reset state)).map Scalar.tanh
  plus (← times (update.map (1 - ·)) state) (← times update candidate)

variable {σ : Type} (next : StateM σ α)

def draw (inputs width : Nat) : StateM σ (GatedCell α) := do
  let updateMessage ← Affine.draw next inputs width
  let updateState ← Affine.draw next width width
  let resetMessage ← Affine.draw next inputs width
  let resetState ← Affine.draw next width width
  let candidateMessage ← Affine.draw next inputs width
  let candidateState ← Affine.draw next width width
  return { updateMessage, updateState, resetMessage, resetState, candidateMessage, candidateState }

end GatedCell

end NeuralFlow
