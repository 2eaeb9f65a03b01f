import NeuralFlow.Backing
import NeuralFlow.Json.Problem

/-!
Everything that can go wrong, by cause. Settings and shapes are checked before anything is computed;
a `Fault` is what an unchecked operation meets when it is used outside its domain.
-/

namespace NeuralFlow

inductive Fault where
  | indexOutOfRange
  | shapesDiffer
  | divisionByZero
  /-- A sum or product of sizes is no 64 bit word. -/
  | overflow
deriving Repr, DecidableEq

inductive FlowError (α : Type) where
  | sizeNotPositive (option : String)
  | hiddenWidthZero
  | headsDoNotDivide (width heads : Nat)
  | stepSizeNotPositive (x : α)
  | momentumOutOfRange (x : α)
  | epsilonOutOfRange (x : α)
  | costConstantNotPositive (x : α)
  | unknownCost (name : String)
  | capacitiesMissing
  | dimensionMismatch (what : String) (expected actual : Nat)
  | backingMismatch (expected actual : Backing)
  | edgeOutOfBounds (src dst nodes : Nat)
  | entryOutOfBounds (row col rows cols : Nat)
  | selfLoop (node : Nat)
  | duplicateEdge (src dst : Nat)
  /-- A link of a network has a capacity that is not positive and finite. -/
  | linkCapacity (src dst : Nat) (x : α)
  /-- A capacity matrix has a value that is not positive and finite. -/
  | edgeCapacity (src dst : Nat) (x : α)
  | noHops
  | firstHopNotIdentity
  | nodeInputsDoNotJoin
  | emptyBatch
  | edgeNotFinite (src dst : Nat) (x : α)
  | entryNotFinite (x : α)
  | demandNotFinite (node : Nat) (x : α)
  | nodeInputNotFinite (what : String) (row col : Nat) (x : α)
  /-- A model with sparse backing got a batch of another size than one. -/
  | batchNotSupported (size : Nat)
  | unreadable (problem : Json.Problem)
  | fault (cause : Fault)
deriving DecidableEq

namespace FlowError

inductive Kind where
  | config
  | dimensionMismatch
  | representationMismatch
  | invalidInput
  | nonFiniteValue
  | batchNotSupported
  | json
  | fault
deriving Repr, DecidableEq

def kind {α : Type} : FlowError α → Kind
  | .sizeNotPositive _ | .hiddenWidthZero | .headsDoNotDivide .. | .stepSizeNotPositive _
  | .momentumOutOfRange _ | .epsilonOutOfRange _ | .costConstantNotPositive _ | .unknownCost _
  | .capacitiesMissing => .config
  | .dimensionMismatch .. => .dimensionMismatch
  | .backingMismatch .. => .representationMismatch
  | .edgeOutOfBounds .. | .entryOutOfBounds .. | .selfLoop _ | .duplicateEdge .. | .linkCapacity ..
  | .edgeCapacity .. | .noHops | .firstHopNotIdentity | .nodeInputsDoNotJoin | .emptyBatch =>
    .invalidInput
  | .edgeNotFinite .. | .entryNotFinite _ | .demandNotFinite .. | .nodeInputNotFinite .. =>
    .nonFiniteValue
  | .batchNotSupported _ => .batchNotSupported
  | .unreadable _ => .json
  | .fault _ => .fault

def detail {α : Type} (text : α → String) : FlowError α → String
  | .sizeNotPositive option => s!"{option} must be positive"
  | .hiddenWidthZero => "hidden layer width 0 must be positive"
  | .headsDoNotDivide width heads =>
    s!"node_encoding {width} must be divisible by num_heads {heads} when heads are concatenated"
  | .stepSizeNotPositive x => s!"dual_step_size must be positive, got {text x}"
  | .momentumOutOfRange x => s!"dual_momentum must lie in [0, 1), got {text x}"
  | .epsilonOutOfRange x => s!"sparsemax_epsilon must lie in (0, 1), got {text x}"
  | .costConstantNotPositive x => s!"cost constant must be positive and finite, got {text x}"
  | .unknownCost name => s!"unknown cost function '{name}'"
  | .capacitiesMissing => "use_capacities is set but the instance has no capacities"
  | .dimensionMismatch what expected actual => s!"{what}: expected {expected}, got {actual}"
  | .backingMismatch expected actual =>
    s!"model configured for {expected.name}, got {actual.name}"
  | .edgeOutOfBounds src dst nodes => s!"edge ({src}, {dst}) out of bounds for {nodes} nodes"
  | .entryOutOfBounds row col rows cols =>
    s!"entry ({row}, {col}) out of bounds for {rows}x{cols} matrix"
  | .selfLoop node => s!"self-loop at node {node}"
  | .duplicateEdge src dst => s!"duplicate edge ({src}, {dst})"
  | .linkCapacity src dst x => s!"edge ({src}, {dst}) has capacity {text x}"
  | .edgeCapacity src dst x => s!"capacity of edge ({src}, {dst}) must be positive, got {text x}"
  | .noHops => "neighborhood set is empty"
  | .firstHopNotIdentity => "hop 0 must be the identity"
  | .nodeInputsDoNotJoin =>
    "cannot join node inputs: ShapeError/IncompatibleShape: incompatible shapes"
  | .emptyBatch => "empty batch"
  | .edgeNotFinite src dst x => s!"edge ({src}, {dst}) = {text x}"
  | .entryNotFinite x => s!"adjacency entry {text x}"
  | .demandNotFinite node x => s!"demand[{node}] = {text x}"
  | .nodeInputNotFinite what row col x => s!"{what}[{row}, {col}] = {text x}"
  | .batchNotSupported size => s!"(batch size {size})"
  | .unreadable problem => problem.message
  | .fault .indexOutOfRange => "index out of range"
  | .fault .shapesDiffer => "shapes differ"
  | .fault .divisionByZero => "division by zero"
  | .fault .overflow => "overflow"

def Kind.opening : Kind → String
  | .config => "configuration error: "
  | .dimensionMismatch => "dimension mismatch for "
  | .representationMismatch => "representation mismatch: "
  | .invalidInput => "invalid input: "
  | .nonFiniteValue => "non-finite value detected: "
  | .batchNotSupported => "sparse mode processes one graph instance at a time "
  | .json => "json error: "
  | .fault => "fault: "

def message (e : FlowError Float32) : String := e.kind.opening ++ e.detail Layout.messageText

end FlowError

/-- A result or the reason why there is none. -/
abbrev Outcome (α β : Type) := Except (FlowError α) β

/-- The value, or a fault if there is none. -/
def orFault {α β : Type} (cause : Fault) : Option β → Outcome α β
  | some b => .ok b
  | none => .error (.fault cause)

@[simp] theorem orFault_some {α β : Type} (cause : Fault) (b : β) :
    (orFault cause (some b) : Outcome α β) = .ok b := rfl

/-- A sum or product of sizes as a word, or a fault if it is none. -/
def wordSize {α : Type} (n : Nat) : Outcome α UInt64 :=
  if n < UInt64.size then .ok (.ofNat n) else .error (.fault .overflow)

/-- The results for `count` numbers from `first` on, up to the first failure. -/
def collect {α β : Type} (f : Nat → Outcome α β) (first : Nat) :
    (count : Nat) → Outcome α (List β)
  | 0 => .ok []
  | count + 1 => do
    let b ← f first
    return b :: (← collect f (first + 1) count)

/-- A step taken a number of times, up to its first failure. -/
def iterate {α β : Type} (step : β → Outcome α β) : Nat → β → Outcome α β
  | 0, b => .ok b
  | k + 1, b => do iterate step k (← step b)

theorem iterate_succ {α β : Type} (step : β → Outcome α β) (k : Nat) (b : β) :
    iterate step (k + 1) b = iterate step k b >>= step := by
  induction k generalizing b with
  | zero => cases h : step b <;> simp [iterate, h, bind, Except.bind]
  | succ k ih =>
    rw [iterate]
    cases h : step b with
    | error e => simp [iterate, h, bind, Except.bind]
    | ok c => simpa [iterate, h, bind, Except.bind] using ih c

end NeuralFlow
