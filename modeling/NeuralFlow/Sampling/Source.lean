import NeuralFlow.Sampling.ChaCha

/-!
Reproducible sources of words. A seed is spread over a key, and the words are the key stream, block
after block.
-/

namespace NeuralFlow

/-- A key stream and a place in it. -/
structure Source where
  key : ChaCha.Key
  /-- The number of the next block. -/
  counter : UInt64
  /-- Words of the last block that were not drawn. -/
  pending : List UInt32
deriving Repr, DecidableEq

namespace Source

/-- One step of the generator that spreads a seed. -/
def spreadStep (state : UInt64) : UInt64 := state * 6364136223846793005 + 11634580027462260723

/-- The word for a state: the upper bits fold the state and turn the result. -/
def spreadWord (state : UInt64) : UInt32 :=
  let x := (((state >>> 18) ^^^ state) >>> 27).toUInt32
  let k := (state >>> 59).toUInt32
  (x >>> k) ||| (x <<< ((32 - k) % 32))

/-- The next word of the key of a seed. -/
def keyWord : StateM UInt64 UInt32 := do
  modify spreadStep
  return spreadWord (← get)

/-- Four words of the key of a seed. -/
def keyRow : StateM UInt64 ChaCha.Row :=
  return ⟨← keyWord, ← keyWord, ← keyWord, ← keyWord⟩

/-- The key of a seed. -/
def keyOfSeed (seed : UInt64) : ChaCha.Key :=
  let key : StateM UInt64 ChaCha.Key := return ⟨← keyRow, ← keyRow⟩
  (key.run seed).1

def ofSeed (seed : UInt64) : Source := ⟨keyOfSeed seed, 0, []⟩

/-- A source with at least one pending word. -/
def refill (s : Source) : Source :=
  if s.pending.isEmpty then
    { s with counter := s.counter + 1, pending := (ChaCha.block s.key s.counter).toList }
  else s

def word32 : StateM Source UInt32 := do
  modify refill
  let s ← get
  set { s with pending := s.pending.tail }
  return s.pending.headD 0

/-- Draws a word of 64 bits, the low half first. -/
def word64 : StateM Source UInt64 := do
  let low ← word32
  let high ← word32
  return low.toUInt64 ||| (high.toUInt64 <<< 32)

end Source

end NeuralFlow
