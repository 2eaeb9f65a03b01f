import NeuralFlow.Sampling.Source
import NeuralFlow.Scalar.Single

/-!
Samples of the standard normal distribution. The area under the bell curve is cut into 256 layers of
one size: a rectangle on top of another, the lowest one with the tail. A draw picks a layer and a
place in it. Most places lie under the curve for sure; for the others a height decides.
-/

namespace NeuralFlow.Normal

/-- Where the tail starts. -/
def tailStart : Float := 3.654152885361008796

def layerArea : Float := 0.00492867323399

/-- The height of the bell curve, one in the middle. -/
def height (x : Float) : Float := (-(x * x) / 2).exp

/-- The edge of the layer on top of one with the edge `x`. -/
def nextEdge (x : Float) : Float := (-2 * (layerArea / x + height x).log).sqrt

/-- An edge and the edges of layers above it. -/
def edgesAbove : Nat → Float → List Float
  | 0, _ => []
  | k + 1, x => x :: edgesAbove k (nextEdge x)

/-- The right edges of the layers from the lowest to the top, where the width is zero. The lowest
layer counts as wide as a rectangle of its area. -/
def edges : Array Float :=
  (layerArea / height tailStart :: edgesAbove 255 tailStart ++ [0]).toArray

def heights : Array Float := edges.map height

def edge (i : Nat) : Float := edges.getD i 0

def heightAt (i : Nat) : Float := heights.getD i 1

/-- Draws a number from minus one up to one, with the layer it is meant for. -/
def layerAndPlace : StateM Source (Nat × Float) := do
  let bits ← Source.word64
  return ((bits &&& 255).toNat, (bits >>> 12).toFloat / 2251799813685248 - 1)

/-- Draws a number between zero and one, neither of them included. -/
def openUnit : StateM Source Float := do
  let bits ← Source.word64
  return ((bits >>> 12).toFloat + 0.5) / 4503599627370496

def unit : StateM Source Float := do
  let bits ← Source.word64
  return (bits >>> 11).toFloat / 9007199254740992

/-- Repeats an attempt until it gives a value, at most a number of times. -/
def retry {σ β : Type} (attempt : StateM σ (Option β)) : Nat → StateM σ (Option β)
  | 0 => return none
  | k + 1 => do
    match ← attempt with
    | some b => return some b
    | none => retry attempt k

/-- One attempt at a distance into the tail. -/
def tailAttempt : StateM Source (Option Float) := do
  let x := (← openUnit).log / tailStart
  let y := (← openUnit).log
  return if -2 * y < x * x then none else some x

/-- How often an attempt is repeated. One attempt in a hundred fails, so no draw comes near it. -/
def attempts : Nat := 1000

def sampleAttempt : StateM Source (Option Float) := do
  let (i, u) ← layerAndPlace
  let x := u * edge i
  if x.abs < edge (i + 1) then return some x
  if i = 0 then
    let depth := (← retry tailAttempt attempts).getD 0
    return some (if u < 0 then depth - tailStart else tailStart - depth)
  let h := heightAt (i + 1) + (heightAt i - heightAt (i + 1)) * (← unit)
  return if h < height x then some x else none

def sample : StateM Source Float := do
  return (← retry sampleAttempt attempts).getD 0

def single : StateM Source Float32 := do
  return Single.ofDouble (← sample)

end NeuralFlow.Normal
