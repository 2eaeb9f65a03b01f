import NeuralFlow.Cost
import NeuralFlow.FlowWeights

/-!
The settings of a flow model and the conditions on them. Sizes are 64 bit words, and a sum of sizes that
is none is a fault.
-/

namespace NeuralFlow

/-- How the outputs of attention heads are merged. -/
inductive HeadMerge where
  /-- Heads share the width of the encoding; their outputs are joined and projected. -/
  | concat
  /-- Heads have the width of the encoding each; their outputs are averaged. -/
  | average
deriving Repr, DecidableEq

structure Settings (α : Type) where
  /-- Whether edge matrices are stored by edge. -/
  sparse : Bool
  rounds : UInt64
  /-- Attention heads for each hop. -/
  heads : UInt64
  headMerge : HeadMerge
  encodingWidth : UInt64
  encoderHidden : List UInt64
  /-- Widths of the hidden layers of both decoders. -/
  decoderHidden : List UInt64
  embeddingWidth : UInt64
  featureWidth : UInt64
  /-- The longest hop of a neighborhood. -/
  maxHop : UInt64
  /-- Whether a hop leaves out nodes of shorter hops. -/
  distinctHops : Bool
  /-- Rounds of flow redistribution. -/
  flowRounds : UInt64
  /-- Rounds of dual ascent. -/
  dualRounds : UInt64
  dualStep : α
  dualMomentum : α
  /-- Whether proportions come from `sparsemax` and not from `softmax`. -/
  useSparsemax : Bool
  /-- Proportions below this are dropped by `sparsemax`. -/
  epsilon : α
  pairing : ScorePairing
  useCapacities : Bool
  /-- Whether opposite flows on mutual edges are cancelled. -/
  cancelReciprocal : Bool
  cost : CostFunction α
  seed : UInt64
deriving Repr, DecidableEq

namespace Settings

variable {α : Type} [Scalar α]

instance : Inhabited (Settings α) where
  default := {
    sparse := false
    rounds := 3
    heads := 4
    headMerge := .concat
    encodingWidth := 32
    encoderHidden := [32]
    decoderHidden := [32]
    embeddingWidth := 8
    featureWidth := 2
    maxHop := 2
    distinctHops := true
    flowRounds := 20
    dualRounds := 10
    dualStep := 0.01
    dualMomentum := 0.9
    useSparsemax := false
    epsilon := 1e-5
    pairing := .product
    useCapacities := false
    cancelReciprocal := false
    cost := ⟨.quadratic, 1⟩
    seed := 42 }

/-- The number of hops in a neighborhood, with hop zero. -/
def hopCount (c : Settings α) : Outcome α UInt64 := wordSize (c.maxHop.toNat + 1)

/-- The width of the input of the encoder. -/
def inputWidth (c : Settings α) : Outcome α UInt64 :=
  wordSize (c.embeddingWidth.toNat + c.featureWidth.toNat)

/-- The backing that a model with these settings works on. -/
def backing (c : Settings α) : Backing := if c.sparse then .sparse else .dense

/-- The way from node scores to proportions. -/
def weightRule (c : Settings α) : WeightRule α where
  normalization := if c.useSparsemax then .sparsemax c.epsilon else .softmax
  pairing := c.pairing

/-- The sizes that must be positive, by name. -/
def positiveSizes (c : Settings α) (inputWidth : UInt64) : List (String × UInt64) :=
  [("graph_layers", c.rounds), ("num_heads", c.heads), ("node_encoding", c.encodingWidth),
    ("embedding_size + num_node_features", inputWidth), ("flow_iters", c.flowRounds),
    ("dual_iters", c.dualRounds)]

/-- Checks ranges and consistency; the first violation is reported. The width of the input is taken
before any check. -/
def validate (c : Settings α) : Outcome α Unit := do
  let inputWidth ← c.inputWidth
  if let some (name, _) := (c.positiveSizes inputWidth).find? fun size => size.2 == 0 then
    throw (.sizeNotPositive name)
  if (c.encoderHidden ++ c.decoderHidden).any (· == 0) then
    throw .hiddenWidthZero
  if c.headMerge = .concat ∧ c.encodingWidth % c.heads ≠ 0 then
    throw (.headsDoNotDivide c.encodingWidth.toNat c.heads.toNat)
  if !(Scalar.isFinite c.dualStep && decide (0 < c.dualStep)) then
    throw (.stepSizeNotPositive c.dualStep)
  if !(decide (0 ≤ c.dualMomentum) && decide (c.dualMomentum < 1)) then
    throw (.momentumOutOfRange c.dualMomentum)
  if !(decide (0 < c.epsilon) && decide (c.epsilon < 1)) then
    throw (.epsilonOutOfRange c.epsilon)
  c.cost.validate

end Settings

end NeuralFlow
