import NeuralFlow.Hops
import NeuralFlow.Layer.Affine
import NeuralFlow.Settings
import NeuralFlow.Simplex

/-!
Attention over neighborhoods. In each hop every node attends to its neighbors of that hop, head by
head; the messages of the hops are then mixed in proportions that each node finds for itself. A node
without neighbors in a hop gets a message of zeros there.
-/

namespace NeuralFlow

/-- The layers of attention. Heads have their own columns of queries, keys and values. -/
structure HopAttention (α : Type) where
  heads : Nat
  headWidth : Nat
  merge : HeadMerge
  query : Affine α
  key : Affine α
  value : Affine α
  /-- Projects joined heads. -/
  output : Option (Affine α)
  /-- Scores the message of a hop. -/
  hopScore : Affine α
deriving DecidableEq

namespace HopAttention

variable {α : Type} [Scalar α] {M : Type → Type} [EdgeMatrix M]

/-- Queries, keys and values, one line for each node. -/
structure Projections (α : Type) where
  query : Grid α
  key : Grid α
  value : Grid α

/-- What attention sends on: a message for each node, and for each node the proportions of the
hops. -/
structure Message (α : Type) where
  message : Grid α
  shares : Grid α

def project (a : HopAttention α) (encoding : Grid α) : Outcome α (Projections α) := do
  let query ← a.query.apply encoding
  let key ← a.key.apply encoding
  let value ← a.value.apply encoding
  return { query, key, value }

/-- The columns of one head. -/
def Projections.head (p : Projections α) (lo hi : Nat) : Outcome α (Projections α) := do
  let query ← orFault .indexOutOfRange (p.query.columns? lo hi)
  let key ← orFault .indexOutOfRange (p.key.columns? lo hi)
  let value ← orFault .indexOutOfRange (p.value.columns? lo hi)
  return { query, key, value }

/-- The scaled product of a node's query and a neighbor's key on every edge of a hop. -/
def scores (hop : M α) (p : Projections α) (scale : α) : Outcome α (M α) :=
  EdgeMatrix.withValuesM hop fun u v _ => do
    let query ← orFault .indexOutOfRange p.query.lines[u]?
    let key ← orFault .indexOutOfRange p.key.lines[v]?
    return Scalar.dot query key / scale

/-- The mean of the neighbors' values in one head, weighted by scores. -/
def headMessage (a : HopAttention α) (hop : M α) (p : Projections α) (head : Nat) :
    Outcome α (Grid α) := do
  let own ← p.head (head * a.headWidth) ((head + 1) * a.headWidth)
  let raw ← scores hop own (Scalar.sqrt a.headWidth)
  let weights := EdgeMatrix.mapRows raw fun _ _ row => Simplex.softmax row
  let mean ← EdgeMatrix.times weights own.value
  orFault .shapesDiffer (mean.stretchLines? p.query.rows)

def join (nodes : Nat) (messages : List (Grid α)) : Outcome α (Grid α) :=
  messages.foldlM (fun joined m => orFault .shapesDiffer (joined.beside? m)) (Grid.zeros nodes 0)

def average (nodes width : Nat) (messages : List (Grid α)) : Outcome α (Grid α) := do
  if width = 0 then throw (.fault .divisionByZero)
  let zeros : Grid α := .zeros nodes width
  let sum ← messages.foldlM (fun sum m => orFault .shapesDiffer (sum.update? (· + ·) m)) zeros
  return sum.map (· / (messages.length : α))

/-- The message of one hop for every node. -/
def hopMessage (a : HopAttention α) (p : Projections α) (hop : M α) : Outcome α (Grid α) := do
  let messages ← collect (a.headMessage hop p) 0 a.heads
  match a.merge, a.output with
  | .concat, some output => output.apply (← join p.query.rows messages)
  | _, _ => average p.query.rows a.headWidth messages

/-- The score of a hop's message for every node. -/
def hopLogits (a : HopAttention α) (message : Grid α) : Outcome α (List α) := do
  orFault .indexOutOfRange ((← a.hopScore.apply message).column? 0)

/-- For every node the proportions of the hops. -/
def hopShares (a : HopAttention α) (nodes : Nat) (messages : List (Grid α)) :
    Outcome α (Grid α) := do
  let logits : Grid α := .ofColumns nodes (← messages.mapM a.hopLogits)
  return logits.mapLines logits.cols Simplex.softmax (by simp [Simplex.length_softmax])

/-- The sum with another hop's message in its proportion. -/
def addHop (shares sum : Grid α) (hop : Grid α × Nat) : Outcome α (Grid α) := do
  let weights ← orFault .indexOutOfRange (shares.columns? hop.2 (hop.2 + 1))
  let weighted ← orFault .shapesDiffer (hop.1.combine? (· * ·) weights)
  orFault .shapesDiffer (sum.update? (· + ·) weighted)

/-- The messages of all hops, mixed and passed through `tanh`. -/
def mix (shares : Grid α) (nodes width : Nat) (messages : List (Grid α)) :
    Outcome α (Grid α) := do
  let sum ← messages.zipIdx.foldlM (addHop shares) (.zeros nodes width)
  return sum.map Scalar.tanh

/-- The message for every node, from the encoding of all nodes. -/
def apply (a : HopAttention α) (encoding : Grid α) (hops : HopSet M α) :
    Outcome α (Message α) := do
  let p ← a.project encoding
  let messages ← hops.hops.mapM (a.hopMessage p)
  let shares ← a.hopShares encoding.rows messages
  return { message := ← mix shares encoding.rows encoding.cols messages, shares }

section Draw

variable {σ : Type} (next : StateM σ α)

/-- The width of a head: an equal part of the encoding if heads are joined, all of it if they are
averaged. -/
def headWidthFor (width heads : UInt64) : HeadMerge → Outcome α UInt64
  | .concat => if heads = 0 then .error (.fault .divisionByZero) else .ok (width / heads)
  | .average => .ok width

/-- The width of all heads together. -/
def projectionWidth (heads headWidth : UInt64) : Outcome α UInt64 :=
  wordSize (heads.toNat * headWidth.toNat)

/-- New attention with heads and projections of the given widths. -/
def drawHeads (width heads headWidth projection : UInt64) (merge : HeadMerge) :
    StateM σ (HopAttention α) := do
  let query ← Affine.draw next width.toNat projection.toNat
  let key ← Affine.draw next width.toNat projection.toNat
  let value ← Affine.draw next width.toNat projection.toNat
  let output ← match merge with
    | .concat => some <$> Affine.draw next projection.toNat width.toNat
    | .average => pure none
  let hopScore ← Affine.draw next width.toNat 1
  return {
    heads := heads.toNat, headWidth := headWidth.toNat, merge, query, key, value, output,
    hopScore }

def draw (width heads : UInt64) (merge : HeadMerge) :
    Outcome α (StateM σ (HopAttention α)) := do
  let headWidth ← headWidthFor width heads merge
  let projection ← projectionWidth heads headWidth
  return drawHeads next width heads headWidth projection merge

end Draw

end HopAttention

end NeuralFlow
