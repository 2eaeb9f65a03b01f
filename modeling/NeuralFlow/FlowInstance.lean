import NeuralFlow.Hops
import NeuralFlow.Network

/-!
What a flow model is asked about: a graph with demands, neighborhoods and inputs for its nodes.
-/

namespace NeuralFlow

structure FlowInstance (M : Type → Type) (α : Type) where
  adjacency : M α
  /-- For each node the flow it sends out, negative where it takes flow in. -/
  demands : List α
  hops : HopSet M α
  /-- A line of precomputed inputs for each node. -/
  embeddings : Grid α
  /-- A line of raw inputs for each node. -/
  features : Grid α
  capacities : Option (M α)

namespace FlowInstance

variable {M : Type → Type} [EdgeMatrix M] {α : Type} [Scalar α]

def numNodes (i : FlowInstance M α) : Nat := EdgeMatrix.numNodes i.adjacency

/-- The instance of a network: its neighborhoods are built, and its demands are the raw inputs. -/
def ofNetwork (network : Network α) (demands : List α) (embeddings : Grid α) (rule : HopRule) :
    Outcome α (FlowInstance M α) := do
  let adjacency : M α ← network.adjacency
  let hops ← rule.build adjacency
  let capacities ← network.capacities
  return {
    adjacency, demands, hops, embeddings
    features := Demands.toFeatures demands
    capacities := some capacities }

end FlowInstance

end NeuralFlow
