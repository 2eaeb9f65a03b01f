import NeuralFlow.EdgeMatrix

/-!
Road networks: directed links between numbered nodes, each with a capacity. `Network.ofLinks` takes
exactly the simple networks whose capacities are positive and finite.
-/

namespace NeuralFlow

/-- A directed link of a road network. -/
structure Link (α : Type) where
  src : Nat
  dst : Nat
  capacity : α
  length : α
  freeFlowTime : α
  b : α
  power : α
  speedLimit : α
  toll : α
  linkType : UInt32
deriving Repr, DecidableEq

namespace Link

variable {α : Type} [Scalar α]

def withCapacity (src dst : Nat) (capacity : α) : Link α where
  src := src
  dst := dst
  capacity := capacity
  length := 0
  freeFlowTime := 0
  b := 0
  power := 0
  speedLimit := 0
  toll := 0
  linkType := 0

def between (src dst : Nat) : Link α := withCapacity src dst 1

def ends (link : Link α) : Nat × Nat := (link.src, link.dst)

end Link

structure Network (α : Type) where
  nodes : Nat
  links : List (Link α)
deriving Repr, DecidableEq

namespace Network

variable {α : Type} [Scalar α]

/-- Checks links in their order, with the ends of the links before them. -/
def checkLinks (nodes : Nat) (seen : List (Nat × Nat)) : List (Link α) → Outcome α Unit
  | [] => .ok ()
  | link :: links =>
    if nodes ≤ link.src ∨ nodes ≤ link.dst then
      .error (.edgeOutOfBounds link.src link.dst nodes)
    else if link.src = link.dst then .error (.selfLoop link.src)
    else if link.ends ∈ seen then .error (.duplicateEdge link.src link.dst)
    else if !(Scalar.isFinite link.capacity && decide (0 < link.capacity)) then
      .error (.linkCapacity link.src link.dst link.capacity)
    else checkLinks nodes (link.ends :: seen) links

/-- The network of the given links, if it is simple and its capacities are positive. -/
def ofLinks (nodes : Nat) (links : List (Link α)) : Outcome α (Network α) := do
  checkLinks nodes [] links
  return ⟨nodes, links⟩

/-- The network of the given pairs, with capacity one on every link. -/
def ofPairs (nodes : Nat) (pairs : List (Nat × Nat)) : Outcome α (Network α) :=
  ofLinks nodes (pairs.map fun (u, v) => Link.between u v)

variable {M : Type → Type} [EdgeMatrix M]

/-- One on every link. -/
def adjacency (network : Network α) : Outcome α (M α) :=
  EdgeMatrix.ofEdges network.nodes (network.links.map fun link => ⟨link.src, link.dst, 1⟩)

/-- The capacity of every link. -/
def capacities (network : Network α) : Outcome α (M α) :=
  EdgeMatrix.ofEdges network.nodes
    (network.links.map fun link => ⟨link.src, link.dst, link.capacity⟩)

end Network

namespace Demands

variable {α : Type} [Scalar α]

/-- The demand of each node, from a supply and a consumption. -/
def ofFeatures (features : Grid α) : Outcome α (List α) := do
  if features.cols ≠ 2 then throw (.dimensionMismatch "node feature columns" 2 features.cols)
  let supplies ← orFault .indexOutOfRange (features.column? 0)
  let consumptions ← orFault .indexOutOfRange (features.column? 1)
  return List.zipWith (· - ·) supplies consumptions

/-- The supply and the consumption of a node. -/
def splitDemand (d : α) : List α := if 0 ≤ d then [d, 0] else [0, -d]

/-- A supply and a consumption for each demand, of which one is zero. -/
def toFeatures (demands : List α) : Grid α where
  cols := 2
  lines := demands.map splitDemand
  width_eq := by
    simp only [List.forall_mem_map]
    intro d _
    unfold splitDemand
    split <;> rfl

end Demands

end NeuralFlow
