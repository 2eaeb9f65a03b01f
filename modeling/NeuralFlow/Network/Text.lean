import NeuralFlow.Json.Record
import NeuralFlow.Network

/-!
Networks as JSON text. A text says what its links are; whether they make a simple network is not
checked.
-/

namespace NeuralFlow

open Json

namespace Link

inductive Field where
  | src | dst | capacity | length | freeFlowTime | b | power | speedLimit | toll | linkType
deriving DecidableEq

namespace Field

def Value : Field → Type
  | .src | .dst => Nat
  | .linkType => UInt32
  | .capacity | .length | .freeFlowTime | .b | .power | .speedLimit | .toll => Float32

def name : Field → String
  | .src => "src"
  | .dst => "dst"
  | .capacity => "capacity"
  | .length => "length"
  | .freeFlowTime => "free_flow_time"
  | .b => "b"
  | .power => "power"
  | .speedLimit => "speed_limit"
  | .toll => "toll"
  | .linkType => "link_type"

def read (format : NumberFormat) : (f : Field) → Reader f.Value
  | .src | .dst => readNatBelow format UInt64.size "usize"
  | .linkType => readCode format
  | .capacity | .length | .freeFlowTime | .b | .power | .speedLimit | .toll => readSingle format

/-- What an absent attribute stands for. Ends and capacity must be given. -/
def fallback : (f : Field) → Option f.Value
  | .src | .dst | .capacity => none
  | .linkType => some (0 : UInt32)
  | .length | .freeFlowTime | .b | .power | .speedLimit | .toll => some (0 : Float32)

def get (link : Link Float32) : (f : Field) → f.Value
  | .src => link.src
  | .dst => link.dst
  | .capacity => link.capacity
  | .length => link.length
  | .freeFlowTime => link.freeFlowTime
  | .b => link.b
  | .power => link.power
  | .speedLimit => link.speedLimit
  | .toll => link.toll
  | .linkType => link.linkType

def write (format : NumberFormat) : (f : Field) → f.Value → Tree
  | .src, (n : Nat) | .dst, (n : Nat) => .nat n
  | .linkType, (n : UInt32) => .nat n.toNat
  | .capacity, (x : Float32) | .length, (x : Float32) | .freeFlowTime, (x : Float32)
  | .b, (x : Float32) | .power, (x : Float32) | .speedLimit, (x : Float32)
  | .toll, (x : Float32) => .single format x

def build (field : (f : Field) → Except Problem f.Value) : Except Problem (Link Float32) := do
  let src ← field .src
  let dst ← field .dst
  let capacity ← field .capacity
  let length ← field .length
  let freeFlowTime ← field .freeFlowTime
  let b ← field .b
  let power ← field .power
  let speedLimit ← field .speedLimit
  let toll ← field .toll
  let linkType ← field .linkType
  return { src, dst, capacity, length, freeFlowTime, b, power, speedLimit, toll, linkType }

end Field

def schema (format : NumberFormat) : Schema (Link Float32) where
  Field := Field
  decEq := inferInstance
  Value := Field.Value
  fields :=
    [.src, .dst, .capacity, .length, .freeFlowTime, .b, .power, .speedLimit, .toll, .linkType]
  name := Field.name
  read := Field.read format
  fallback := Field.fallback
  title := "struct EdgeAttributes"
  closed := false
  build := Field.build
  get := Field.get
  write := Field.write format

end Link

namespace Network

inductive Field where
  | nodes
  | links
deriving DecidableEq

def Field.Value : Field → Type
  | .nodes => Nat
  | .links => List (Link Float32)

def schema (format : NumberFormat) : Schema (Network Float32) where
  Field := Field
  decEq := inferInstance
  Value := Field.Value
  fields := [.nodes, .links]
  name
    | .nodes => "num_nodes"
    | .links => "edges"
  read
    | .nodes => readNatBelow format UInt64.size "usize"
    | .links => readList format ((Link.schema format).readRecord format)
  fallback _ := none
  title := "struct FlowGraph"
  closed := false
  build field := do
    let nodes ← field .nodes
    let links ← field .links
    return ⟨nodes, links⟩
  get network
    | .nodes => network.nodes
    | .links => network.links
  write
    | .nodes, (n : Nat) => .nat n
    | .links, (links : List (Link Float32)) => .list (links.map (Link.schema format).tree)

def parse (format : NumberFormat) (text : String) : Outcome Float32 (Network Float32) :=
  match Json.parse ((schema format).readRecord format) text with
  | .error problem => .error (.unreadable problem)
  | .ok network => .ok network

def render (format : NumberFormat) (network : Network Float32) : String :=
  ((schema format).tree network).compact

end Network

end NeuralFlow
