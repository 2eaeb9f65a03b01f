import NeuralFlow.Json.Record
import NeuralFlow.Settings

/-!
Settings as JSON text. The solver rounds, the backing and the cost must be given, everything else has
a default, and names that are no settings are refused. `parse` also checks the settings; `render` is
the indented form with all settings. How numbers are written and read is given with a `NumberFormat`.
-/

namespace NeuralFlow

open Json

/-! ## Enumerations -/

namespace HeadMerge

def variants : List (String × Variant HeadMerge) :=
  [("concat", .plain .concat), ("average", .plain .average)]

def word : HeadMerge → String
  | .concat => "concat"
  | .average => "average"

end HeadMerge

namespace ScorePairing

def variants : List (String × Variant ScorePairing) :=
  [("product", .plain .product), ("sum", .plain .sum)]

def word : ScorePairing → String
  | .product => "product"
  | .sum => "sum"

end ScorePairing

namespace CostFamily

def variants : List (String × Variant CostFamily) :=
  [("quadratic", .plain .quadratic), ("cubic", .plain .cubic), ("exp", .plain .exponential)]

end CostFamily

/-! ## Cost functions -/

namespace CostFunction

inductive Field where
  | name
  | constant
deriving DecidableEq

def Field.Value : Field → Type
  | .name => CostFamily
  | .constant => Float32

def schema (format : NumberFormat) : Schema (CostFunction Float32) where
  Field := Field
  decEq := inferInstance
  Value := Field.Value
  fields := [.name, .constant]
  name
    | .name => "name"
    | .constant => "constant"
  read
    | .name => readVariant format CostFamily.variants
    | .constant => readSingle format
  fallback _ := none
  title := "struct CostFunction"
  closed := false
  build field := do
    let family ← field .name
    let constant ← field .constant
    return ⟨family, constant⟩
  get cost
    | .name => cost.family
    | .constant => cost.constant
  write
    | .name, (family : CostFamily) => .word family.name
    | .constant, (x : Float32) => .single format x

end CostFunction

/-! ## Settings -/

namespace Settings

inductive Field where
  | sparse | rounds | heads | headMerge | encodingWidth | encoderHidden | decoderHidden
  | embeddingWidth | featureWidth | maxHop | distinctHops | flowRounds | dualRounds | dualStep
  | dualMomentum | useSparsemax | epsilon | pairing | useCapacities | cancelReciprocal | cost | seed
deriving DecidableEq

namespace Field

def Value : Field → Type
  | .sparse | .distinctHops | .useSparsemax | .useCapacities | .cancelReciprocal => Bool
  | .rounds | .heads | .encodingWidth | .embeddingWidth | .featureWidth | .maxHop | .flowRounds
  | .dualRounds | .seed => UInt64
  | .headMerge => HeadMerge
  | .encoderHidden | .decoderHidden => List UInt64
  | .dualStep | .dualMomentum | .epsilon => Float32
  | .pairing => ScorePairing
  | .cost => CostFunction Float32

def all : List Field :=
  [.sparse, .rounds, .heads, .headMerge, .encodingWidth, .encoderHidden, .decoderHidden,
    .embeddingWidth, .featureWidth, .maxHop, .distinctHops, .flowRounds, .dualRounds, .dualStep,
    .dualMomentum, .useSparsemax, .epsilon, .pairing, .useCapacities, .cancelReciprocal, .cost,
    .seed]

def name : Field → String
  | .sparse => "sparse"
  | .rounds => "graph_layers"
  | .heads => "num_heads"
  | .headMerge => "head_combine"
  | .encodingWidth => "node_encoding"
  | .encoderHidden => "encoder_hidden"
  | .decoderHidden => "decoder_hidden"
  | .embeddingWidth => "embedding_size"
  | .featureWidth => "num_node_features"
  | .maxHop => "num_neighborhoods"
  | .distinctHops => "unique_neighborhoods"
  | .flowRounds => "flow_iters"
  | .dualRounds => "dual_iters"
  | .dualStep => "dual_step_size"
  | .dualMomentum => "dual_momentum"
  | .useSparsemax => "use_sparsemax"
  | .epsilon => "sparsemax_epsilon"
  | .pairing => "score_pairing"
  | .useCapacities => "use_capacities"
  | .cancelReciprocal => "should_correct_flows"
  | .cost => "cost_fn"
  | .seed => "seed"

def read (format : NumberFormat) : (f : Field) → Reader f.Value
  | .sparse | .distinctHops | .useSparsemax | .useCapacities | .cancelReciprocal => readBool format
  | .rounds | .heads | .encodingWidth | .embeddingWidth | .featureWidth | .maxHop | .flowRounds
  | .dualRounds => readSize format
  | .seed => readSeed format
  | .headMerge => readVariant format HeadMerge.variants
  | .encoderHidden | .decoderHidden => readList format (readSize format)
  | .dualStep | .dualMomentum | .epsilon => readSingle format
  | .pairing => readVariant format ScorePairing.variants
  | .cost => (CostFunction.schema format).readRecord format

def get (c : Settings Float32) : (f : Field) → f.Value
  | .sparse => c.sparse
  | .rounds => c.rounds
  | .heads => c.heads
  | .headMerge => c.headMerge
  | .encodingWidth => c.encodingWidth
  | .encoderHidden => c.encoderHidden
  | .decoderHidden => c.decoderHidden
  | .embeddingWidth => c.embeddingWidth
  | .featureWidth => c.featureWidth
  | .maxHop => c.maxHop
  | .distinctHops => c.distinctHops
  | .flowRounds => c.flowRounds
  | .dualRounds => c.dualRounds
  | .dualStep => c.dualStep
  | .dualMomentum => c.dualMomentum
  | .useSparsemax => c.useSparsemax
  | .epsilon => c.epsilon
  | .pairing => c.pairing
  | .useCapacities => c.useCapacities
  | .cancelReciprocal => c.cancelReciprocal
  | .cost => c.cost
  | .seed => c.seed

/-- What an absent setting stands for. Four settings must be given. -/
def fallback (f : Field) : Option f.Value :=
  match f with
  | .sparse | .flowRounds | .dualRounds | .cost => none
  | f => some (get default f)

def write (format : NumberFormat) : (f : Field) → f.Value → Tree
  | .sparse, b | .distinctHops, b | .useSparsemax, b | .useCapacities, b | .cancelReciprocal, b =>
    .boolean b
  | .rounds, (n : UInt64) | .heads, (n : UInt64) | .encodingWidth, (n : UInt64)
  | .embeddingWidth, (n : UInt64) | .featureWidth, (n : UInt64) | .maxHop, (n : UInt64)
  | .flowRounds, (n : UInt64) | .dualRounds, (n : UInt64) | .seed, (n : UInt64) => .nat n.toNat
  | .headMerge, (merge : HeadMerge) => .word merge.word
  | .encoderHidden, (ns : List UInt64) | .decoderHidden, (ns : List UInt64) =>
    .list (ns.map fun n => .nat n.toNat)
  | .dualStep, (x : Float32) | .dualMomentum, (x : Float32) | .epsilon, (x : Float32) =>
    .single format x
  | .pairing, (p : ScorePairing) => .word p.word
  | .cost, (f : CostFunction Float32) => (CostFunction.schema format).tree f

def build (field : (f : Field) → Except Problem f.Value) : Except Problem (Settings Float32) := do
  let sparse ← field .sparse
  let rounds ← field .rounds
  let heads ← field .heads
  let headMerge ← field .headMerge
  let encodingWidth ← field .encodingWidth
  let encoderHidden ← field .encoderHidden
  let decoderHidden ← field .decoderHidden
  let embeddingWidth ← field .embeddingWidth
  let featureWidth ← field .featureWidth
  let maxHop ← field .maxHop
  let distinctHops ← field .distinctHops
  let flowRounds ← field .flowRounds
  let dualRounds ← field .dualRounds
  let dualStep ← field .dualStep
  let dualMomentum ← field .dualMomentum
  let useSparsemax ← field .useSparsemax
  let epsilon ← field .epsilon
  let pairing ← field .pairing
  let useCapacities ← field .useCapacities
  let cancelReciprocal ← field .cancelReciprocal
  let cost ← field .cost
  let seed ← field .seed
  return {
    sparse, rounds, heads, headMerge, encodingWidth, encoderHidden, decoderHidden, embeddingWidth,
    featureWidth, maxHop, distinctHops, flowRounds, dualRounds, dualStep, dualMomentum,
    useSparsemax, epsilon, pairing, useCapacities, cancelReciprocal, cost, seed }

end Field

def schema (format : NumberFormat) : Schema (Settings Float32) where
  Field := Field
  decEq := inferInstance
  Value := Field.Value
  fields := Field.all
  name := Field.name
  read := Field.read format
  fallback := Field.fallback
  title := "struct McfConfig"
  closed := true
  build := Field.build
  get := Field.get
  write := Field.write format

/-- The settings of a text, if it has the right content and they are valid. -/
def parse (format : NumberFormat) (text : String) : Outcome Float32 (Settings Float32) :=
  match Json.parse ((schema format).readRecord format) text with
  | .error problem => .error (.unreadable problem)
  | .ok c => do
    c.validate
    return c

def render (format : NumberFormat) (c : Settings Float32) : String := ((schema format).tree c).pretty

end Settings

/-! ## Weight rules -/

namespace Normalization

/-- The record that `sparsemax` carries. -/
def sparsemaxSchema (format : NumberFormat) : Schema (Normalization Float32) where
  Field := Unit
  decEq := inferInstance
  Value _ := Float32
  fields := [()]
  name _ := "epsilon"
  read _ := readSingle format
  fallback _ := none
  title := "struct variant Normalization::Sparsemax"
  closed := false
  build field := do return .sparsemax (← field ())
  get
    | .softmax, _ => 0
    | .sparsemax epsilon, _ => epsilon
  write _ (x : Float32) := .single format x

def variants (format : NumberFormat) : List (String × Variant (Normalization Float32)) :=
  [("softmax", .plain .softmax),
    ("sparsemax", .carrying ((sparsemaxSchema format).readRecord format))]

def tree (format : NumberFormat) : Normalization Float32 → Tree
  | .softmax => .word "softmax"
  | .sparsemax epsilon => .object [("sparsemax", (sparsemaxSchema format).tree (.sparsemax epsilon))]

end Normalization

namespace WeightRule

inductive Field where
  | normalization
  | pairing
deriving DecidableEq

def Field.Value : Field → Type
  | .normalization => Normalization Float32
  | .pairing => ScorePairing

def schema (format : NumberFormat) : Schema (WeightRule Float32) where
  Field := Field
  decEq := inferInstance
  Value := Field.Value
  fields := [.normalization, .pairing]
  name
    | .normalization => "normalization"
    | .pairing => "pairing"
  read
    | .normalization => readVariant format (Normalization.variants format)
    | .pairing => readVariant format ScorePairing.variants
  fallback _ := none
  title := "struct FlowWeightNormalizer"
  closed := false
  build field := do
    let normalization ← field .normalization
    let pairing ← field .pairing
    return ⟨normalization, pairing⟩
  get rule
    | .normalization => rule.normalization
    | .pairing => rule.pairing
  write
    | .normalization, (n : Normalization Float32) => n.tree format
    | .pairing, (pairing : ScorePairing) => .word pairing.word

/-- The weight rule of a text. -/
def parse (format : NumberFormat) (text : String) : Outcome Float32 (WeightRule Float32) :=
  match Json.parse ((schema format).readRecord format) text with
  | .error problem => .error (.unreadable problem)
  | .ok rule => .ok rule

def render (format : NumberFormat) (rule : WeightRule Float32) : String :=
  ((schema format).tree rule).compact

end WeightRule

end NeuralFlow
