/-!
The ChaCha block function with twelve rounds. A block is four rows of four words; a round works on the
four columns at once, or on the four diagonals after the rows were turned.
-/

namespace NeuralFlow.ChaCha

structure Row where
  a : UInt32
  b : UInt32
  c : UInt32
  d : UInt32
deriving Repr, DecidableEq

namespace Row

def map (f : UInt32 → UInt32) (r : Row) : Row := ⟨f r.a, f r.b, f r.c, f r.d⟩

def zip (f : UInt32 → UInt32 → UInt32) (r s : Row) : Row := ⟨f r.a s.a, f r.b s.b, f r.c s.c, f r.d s.d⟩

/-- The row turned left by one word. -/
def turn (r : Row) : Row := ⟨r.b, r.c, r.d, r.a⟩

def toList (r : Row) : List UInt32 := [r.a, r.b, r.c, r.d]

end Row

/-- A word with its bits turned left. -/
def rotateLeft (k x : UInt32) : UInt32 := (x <<< k) ||| (x >>> (32 - k))

structure Block where
  p : Row
  q : Row
  r : Row
  s : Row
deriving Repr, DecidableEq

namespace Block

def toList (x : Block) : List UInt32 := x.p.toList ++ x.q.toList ++ x.r.toList ++ x.s.toList

def add (x y : Block) : Block :=
  ⟨x.p.zip (· + ·) y.p, x.q.zip (· + ·) y.q, x.r.zip (· + ·) y.r, x.s.zip (· + ·) y.s⟩

/-- Half of the work of a round: `j` and `k` are the rotations. -/
def halfRound (j k : UInt32) (x : Block) : Block :=
  let p := x.p.zip (· + ·) x.q
  let s := (x.s.zip (· ^^^ ·) p).map (rotateLeft j)
  let r := x.r.zip (· + ·) s
  let q := (x.q.zip (· ^^^ ·) r).map (rotateLeft k)
  ⟨p, q, r, s⟩

def columnRound (x : Block) : Block := (x.halfRound 16 12).halfRound 8 7

/-- Turns the rows so that diagonals become columns. -/
def skew (x : Block) : Block := ⟨x.p, x.q.turn, x.r.turn.turn, x.s.turn.turn.turn⟩

/-- Turns the rows back. -/
def unskew (x : Block) : Block := ⟨x.p, x.q.turn.turn.turn, x.r.turn.turn, x.s.turn⟩

/-- A round on the columns and one on the diagonals. -/
def doubleRound (x : Block) : Block := x.columnRound.skew.columnRound.unskew

def rounds : Nat → Block → Block
  | 0, x => x
  | k + 1, x => rounds k x.doubleRound

end Block

structure Key where
  low : Row
  high : Row
deriving Repr, DecidableEq

/-- The start of a block: constants, key, the number of the block, and the number of the stream,
which is zero. -/
def start (key : Key) (counter : UInt64) : Block where
  p := ⟨0x61707865, 0x3320646e, 0x79622d32, 0x6b206574⟩
  q := key.low
  r := key.high
  s := ⟨counter.toUInt32, (counter >>> 32).toUInt32, 0, 0⟩

/-- The words of a block of the key stream. -/
def block (key : Key) (counter : UInt64) : Block :=
  let x := start key counter
  (x.rounds 6).add x

end NeuralFlow.ChaCha
