import NeuralFlow.Hops

/-!
Remembered neighborhoods. Sets are filed under a fingerprint of their graph and the rule they were
built by. Fingerprints may collide: a set counts only for a graph whose pattern is the one it was
built from.
-/

namespace NeuralFlow

/-- Sets of hops by key, each with the graph it was built from. -/
structure HopMemo (κ : Type) (M : Type → Type) (α : Type) where
  buckets : List ((κ × HopRule) × List (M α × HopSet M α))

namespace HopMemo

variable {κ : Type} {M : Type → Type} {α : Type}

def empty : HopMemo κ M α := ⟨[]⟩

def size (memo : HopMemo κ M α) : Nat := (memo.buckets.flatMap fun bucket => bucket.2).length

def isEmpty (memo : HopMemo κ M α) : Bool := memo.size == 0

section Keys

variable [DecidableEq κ]

def bucket (memo : HopMemo κ M α) (key : κ × HopRule) : List (M α × HopSet M α) :=
  (memo.buckets.lookup key).getD []

/-- Files a set at the end of the bucket of its key. -/
def insertInto (key : κ × HopRule) (entry : M α × HopSet M α) :
    List ((κ × HopRule) × List (M α × HopSet M α)) →
      List ((κ × HopRule) × List (M α × HopSet M α))
  | [] => [(key, [entry])]
  | (k, sets) :: rest =>
    if k = key then (k, sets ++ [entry]) :: rest else (k, sets) :: insertInto key entry rest

def insert (memo : HopMemo κ M α) (key : κ × HopRule) (entry : M α × HopSet M α) :
    HopMemo κ M α := ⟨insertInto key entry memo.buckets⟩

variable [EdgeMatrix M] [Scalar α]

/-- The neighborhoods of a graph, remembered or built, and the memo that remembers them. -/
def getOrBuild (fingerprint : M α → κ) (memo : HopMemo κ M α) (adjacency : M α)
    (rule : HopRule) : Outcome α (HopSet M α × HopMemo κ M α) := do
  let key := (fingerprint adjacency, rule)
  match (memo.bucket key).find? fun entry => EdgeMatrix.samePattern entry.1 adjacency with
  | some (_, set) => return (set, memo)
  | none =>
    let set ← rule.build adjacency
    return (set, memo.insert key (adjacency, set))

end Keys

/-- A fingerprint of the nodes and edges of a graph; values do not count. -/
def fingerprint [EdgeMatrix M] (adjacency : M α) : UInt64 :=
  hash (EdgeMatrix.numNodes adjacency, EdgeMatrix.pattern adjacency)

end HopMemo

end NeuralFlow
