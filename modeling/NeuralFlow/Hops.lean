import NeuralFlow.EdgeMatrix

/-!
Neighborhoods of a directed graph. Hop `i` of a node holds the nodes at the ends of the walks of
exactly `i` edges that start there; with distinct hops it leaves out the nodes of shorter hops.
-/

namespace NeuralFlow

/-- The hops from zero on, as matrices with one on every edge. -/
structure HopSet (M : Type → Type) (α : Type) where
  hops : List (M α)

namespace HopSet

variable {M : Type → Type} [EdgeMatrix M] {α : Type}

/-- Whether the pattern is the diagonal: as many edges as nodes, and every diagonal entry among
them. -/
def isIdentity (hop : M α) : Bool :=
  let n := EdgeMatrix.numNodes hop
  EdgeMatrix.numEdges hop == n && (List.range n).all fun i => EdgeMatrix.hasEdge hop i i

/-- The set of the given hops. Hop zero must be the identity, and all hops need the same nodes. -/
def ofHops (hops : List (M α)) : Outcome α (HopSet M α) :=
  match hops with
  | [] => .error .noHops
  | first :: _ =>
    if !isIdentity first then .error .firstHopNotIdentity
    else
      let n := EdgeMatrix.numNodes first
      match hops.find? fun hop => EdgeMatrix.numNodes hop != n with
      | some hop => .error (.dimensionMismatch "neighborhood nodes" n (EdgeMatrix.numNodes hop))
      | none => .ok ⟨hops⟩

def size (set : HopSet M α) : Nat := set.hops.length

def isEmpty (set : HopSet M α) : Bool := set.hops.isEmpty

def maxHop (set : HopSet M α) : Nat := set.size - 1

def hop? (set : HopSet M α) (i : Nat) : Option (M α) := set.hops[i]?

def numNodes (set : HopSet M α) : Nat := set.hops.head?.elim 0 EdgeMatrix.numNodes

def maxDegree (hop : M α) : Nat :=
  (List.range (EdgeMatrix.numNodes hop)).foldl
    (fun best u => max best ((EdgeMatrix.rowDegree? hop u).getD 0)) 0

/-- For each hop the largest number of neighbors of a node. -/
def maxDegrees (set : HopSet M α) : List Nat := set.hops.map maxDegree

end HopSet

/-- Which hops to build: how far, and whether nodes of shorter hops are left out. -/
structure HopRule where
  maxHop : Nat
  distinct : Bool
deriving Repr, DecidableEq

namespace HopRule

/-- For each node, the nodes at the ends of its walks of one length, and all nodes met before. -/
structure Frontier where
  reach : List (List Nat)
  seen : List (List Nat)

/-- Every node at itself. -/
def Frontier.start (n : Nat) : Frontier where
  reach := (List.range n).map fun u => [u]
  seen := (List.range n).map fun u => [u]

/-- The nodes one edge further, in rising order. -/
def stepReach (n : Nat) (successors : List (List Nat)) (reach : List Nat) : List Nat :=
  (List.range n).filter fun v => reach.any fun w => (successors.getD w []).contains v

def Frontier.next (n : Nat) (successors : List (List Nat)) (f : Frontier) : Frontier :=
  let reach := f.reach.map (stepReach n successors)
  { reach, seen := List.zipWith (· ++ ·) f.seen reach }

section Numbers

variable {α : Type} [Scalar α]

/-- The entries of a hop for one node. -/
def rowEntries (rule : HopRule) (u : Nat) (reach seen : List Nat) : List (Edge α) :=
  (reach.filter fun v => !(rule.distinct && seen.contains v)).map fun v => ⟨u, v, 1⟩

/-- The entries of a hop, from the walks of its length and the nodes met on shorter ones. -/
def hopEntries (rule : HopRule) (reach seen : List (List Nat)) : List (Edge α) :=
  (reach.zip seen).zipIdx.flatMap fun ((r, s), u) => rule.rowEntries u r s

def entriesFrom (rule : HopRule) (n : Nat) (successors : List (List Nat)) :
    Nat → Frontier → List (List (Edge α))
  | 0, _ => []
  | k + 1, f =>
    let next := f.next n successors
    rule.hopEntries next.reach f.seen :: entriesFrom rule n successors k next

variable {M : Type → Type} [EdgeMatrix M]

/-- The ends of the edges that leave each node. -/
def successors (adjacency : M α) : List (List Nat) :=
  (List.range (EdgeMatrix.numNodes adjacency)).map fun u =>
    (EdgeMatrix.row adjacency u).map Edge.dst

def build (rule : HopRule) (adjacency : M α) : Outcome α (HopSet M α) := do
  let n := EdgeMatrix.numNodes adjacency
  let first ← EdgeMatrix.ofEdges n ((List.range n).map fun i => ⟨i, i, 1⟩)
  let entries := rule.entriesFrom n (successors adjacency) rule.maxHop (.start n)
  let rest ← entries.mapM (EdgeMatrix.ofEdges n)
  return ⟨first :: rest⟩

end Numbers

/-- How far hops go in a graph of the given size: the whole part of the logarithm, at least two. -/
def defaultMaxHop (nodes : UInt64) : UInt64 :=
  if nodes < 2 then 2 else max (Float.log nodes.toFloat).toUInt64 2

end HopRule

end NeuralFlow
