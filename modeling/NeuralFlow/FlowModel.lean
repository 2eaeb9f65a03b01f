import NeuralFlow.DualAscent
import NeuralFlow.FlowInstance.Check
import NeuralFlow.Layer.GatedCell
import NeuralFlow.Layer.HopAttention
import NeuralFlow.Layer.Perceptron
import NeuralFlow.Redistribution

/-!
The flow model. Nodes are encoded from their inputs and from messages over their neighborhoods. From
the encoding one decoder makes scores, which become flow weights and then a flow; another one makes
potentials, from which dual ascent finds a lower bound on the cost of any flow. The gap between cost
and bound is what the model is judged by.
-/

namespace NeuralFlow

structure FlowModel (α : Type) where
  settings : Settings α
  encoder : Perceptron α
  attention : HopAttention α
  cell : GatedCell α
  scoreDecoder : Perceptron α
  potentialDecoder : Perceptron α

namespace FlowModel

variable {α : Type} [Scalar α]

section Draw

variable {σ : Type} (next : StateM σ α)

/-- A new model: its settings are checked, and then its layers are drawn one after the other. -/
def draw (c : Settings α) (source : σ) : Outcome α (FlowModel α) := do
  c.validate
  let width := c.encodingWidth.toNat
  let decoderHidden := c.decoderHidden.map UInt64.toNat
  let inputWidth ← c.inputWidth
  let drawAttention ← HopAttention.draw next c.encodingWidth c.heads c.headMerge
  let layers : StateM σ (FlowModel α) := do
    let encoder ← Perceptron.draw next inputWidth.toNat (c.encoderHidden.map UInt64.toNat)
      width true
    let attention ← drawAttention
    let cell ← GatedCell.draw next width width
    let scoreDecoder ← Perceptron.draw next width decoderHidden 1 false
    let potentialDecoder ← Perceptron.draw next width decoderHidden 1 false
    return { settings := c, encoder, attention, cell, scoreDecoder, potentialDecoder }
  return (layers.run source).1

end Draw

/-- What is known of the nodes: their encoding, and the proportions in which they mixed the messages
of their hops last. -/
structure NodeState (α : Type) where
  encoding : Grid α
  shares : Grid α

/-- What a model says about an instance. -/
structure Evaluation (M : Type → Type) (α : Type) where
  flow : M α
  weights : M α
  cost : α
  bound : α
  dualFlow : M α
  potentials : List α
  nodes : NodeState α
  scores : List α
  /-- The largest imbalance of the flow before cancellation and clipping. -/
  residual : α

/-- The cost of the flow over the lower bound. -/
def Evaluation.gap {M : Type → Type} (e : Evaluation M α) : α := e.cost - e.bound

structure BatchEvaluation (M : Type → Type) (α : Type) where
  evaluations : List (Evaluation M α)
  loss : α

variable {M : Type → Type} [EdgeMatrix M]

/-- The inputs of all nodes, embeddings before features. -/
def nodeInputs (i : FlowInstance M α) : Outcome α (Grid α) :=
  match i.embeddings.beside? i.features with
  | some inputs => .ok inputs
  | none => .error .nodeInputsDoNotJoin

def round (m : FlowModel α) (hops : HopSet M α) (s : NodeState α) : Outcome α (NodeState α) := do
  let sent ← m.attention.apply s.encoding hops
  return { encoding := ← m.cell.apply sent.message s.encoding, shares := sent.shares }

/-- The nodes after the given number of rounds. -/
def encodeRounds (m : FlowModel α) (rounds : Nat) (i : FlowInstance M α) :
    Outcome α (NodeState α) := do
  let encoding ← m.encoder.apply (← nodeInputs i)
  iterate (m.round i.hops) rounds
    { encoding, shares := .zeros i.numNodes i.hops.size }

def encode (m : FlowModel α) (i : FlowInstance M α) : Outcome α (NodeState α) :=
  m.encodeRounds m.settings.rounds.toNat i

/-- The first output of a decoder for every node. -/
def decode (decoder : Perceptron α) (encoding : Grid α) : Outcome α (List α) := do
  orFault .indexOutOfRange ((← decoder.apply encoding).column? 0)

/-- Cancels opposite flow, if the settings ask for it. -/
def cancel (c : Settings α) (flow : M α) : Outcome α (M α) :=
  if c.cancelReciprocal then Flow.cancelReciprocal flow else .ok flow

/-- The final flow and its cost: clipped to the capacities and priced with them, if the settings ask
for it. -/
def price (c : Settings α) (capacities : Option (M α)) (flow : M α) : Outcome α (M α × α) :=
  match capacities, c.useCapacities with
  | some capacities, true => do
    let clipped ← Flow.clip flow capacities
    return (clipped, ← c.cost.totalWithCapacities clipped capacities)
  | _, _ => .ok (flow, c.cost.total flow)

def ascent (c : Settings α) : DualAscent α where
  cost := c.cost
  rounds := c.dualRounds.toNat
  step := c.dualStep
  momentum := c.dualMomentum

/-- Evaluates an instance. Nothing is computed for an instance that fails its checks. -/
def evaluate (m : FlowModel α) (i : FlowInstance M α) : Outcome α (Evaluation M α) := do
  let c := m.settings
  i.check c
  let nodes ← m.encode i
  let scores ← decode m.scoreDecoder nodes.encoding
  let weights ← c.weightRule.weights i.adjacency scores
  let primal ← Redistribution.solve c.flowRounds.toNat weights i.demands
  let (flow, cost) ← price c i.capacities (← cancel c primal.flow)
  let initial ← decode m.potentialDecoder nodes.encoding
  let dual ← (ascent c).solve i.adjacency i.demands initial
  return {
    flow, weights, cost
    bound := dual.cost
    dualFlow := dual.response.flow
    potentials := dual.potentials
    nodes, scores
    residual := primal.residual }

/-- Evaluates instances that do not depend on each other. A model with sparse backing takes one at a
time, and there must be one. -/
def evaluateBatch (m : FlowModel α) (instances : List (FlowInstance M α)) :
    Outcome α (BatchEvaluation M α) := do
  if m.settings.sparse ∧ instances.length ≠ 1 then throw (.batchNotSupported instances.length)
  if instances.isEmpty then throw .emptyBatch
  let evaluations ← instances.mapM m.evaluate
  let loss := Scalar.runningSum (evaluations.map Evaluation.gap) / (evaluations.length : α)
  return { evaluations, loss }

end FlowModel

end NeuralFlow
