/-!
# The ChaCha8 generator

The first block of the ChaCha stream cipher with eight rounds, counter and stream number zero, under
a key that is expanded from one 64-bit number by steps of a permuted congruential generator. Its
first two words are the 64 random bits of a draw. Every step is defined on machine words, so the
result is the same everywhere.
-/

set_option autoImplicit false

namespace GrowthGrammar.ChaCha

/-- The word turned to the left by `n` bits, for `0 < n < 32`. -/
def rotateLeft (x n : UInt32) : UInt32 :=
  (x <<< n) ||| (x >>> (32 - n))

/-- The word turned to the right by `n` bits, for `n < 32`. -/
def rotateRight (x n : UInt32) : UInt32 :=
  if n = 0 then x else (x >>> n) ||| (x <<< (32 - n))

/-- Four words of a block. -/
structure Row where
  a : UInt32
  b : UInt32
  c : UInt32
  d : UInt32
  deriving Repr, DecidableEq

/-- The sixteen words of a block, as four rows. -/
structure Block where
  first : Row
  second : Row
  third : Row
  fourth : Row
  deriving Repr, DecidableEq

/-- Applies an operation to two rows, word by word. -/
def Row.zip (f : UInt32 → UInt32 → UInt32) (x y : Row) : Row :=
  ⟨f x.a y.a, f x.b y.b, f x.c y.c, f x.d y.d⟩

/-- Turns every word of a row to the left. -/
def Row.rotate (n : UInt32) (x : Row) : Row :=
  ⟨rotateLeft x.a n, rotateLeft x.b n, rotateLeft x.c n, rotateLeft x.d n⟩

/-- The row with its words moved one place to the front. -/
def Row.shift (x : Row) : Row :=
  ⟨x.b, x.c, x.d, x.a⟩

/-- A quarter round on each of the four columns. -/
def Block.columnRound (block : Block) : Block :=
  let ⟨a, b, c, d⟩ := block
  let a := a.zip (· + ·) b
  let d := (d.zip (· ^^^ ·) a).rotate 16
  let c := c.zip (· + ·) d
  let b := (b.zip (· ^^^ ·) c).rotate 12
  let a := a.zip (· + ·) b
  let d := (d.zip (· ^^^ ·) a).rotate 8
  let c := c.zip (· + ·) d
  let b := (b.zip (· ^^^ ·) c).rotate 7
  ⟨a, b, c, d⟩

/-- A column round and a round on the diagonals, which are columns once the rows are shifted. -/
def Block.doubleRound (block : Block) : Block :=
  let ⟨a, b, c, d⟩ := block.columnRound
  let ⟨a, b, c, d⟩ := (Block.mk a b.shift c.shift.shift d.shift.shift.shift).columnRound
  ⟨a, b.shift.shift.shift, c.shift.shift, d.shift⟩

/-- Eight rounds, and then the words of the start are added. -/
def Block.permute (block : Block) : Block :=
  let mixed := block.doubleRound.doubleRound.doubleRound.doubleRound
  let add (x y : Row) : Row := x.zip (· + ·) y
  ⟨add mixed.first block.first, add mixed.second block.second, add mixed.third block.third,
    add mixed.fourth block.fourth⟩

/-- One step of the congruential generator. -/
def advance (state : UInt64) : UInt64 :=
  state * 6364136223846793005 + 11634580027462260723

/-- The permuted output of a state of the congruential generator. -/
def output (state : UInt64) : UInt32 :=
  rotateRight (((state >>> 18) ^^^ state) >>> 27).toUInt32 (state >>> 59).toUInt32

/-- Four words of key and the state after them. -/
def keyRow (state : UInt64) : Row × UInt64 :=
  let s₁ := advance state
  let s₂ := advance s₁
  let s₃ := advance s₂
  let s₄ := advance s₃
  (⟨output s₁, output s₂, output s₃, output s₄⟩, s₄)

/-- The block that a seed number starts from: the constants, the key, and a counter at zero. -/
def initial (seed : UInt64) : Block :=
  let (second, state) := keyRow seed
  let (third, _) := keyRow state
  ⟨⟨0x61707865, 0x3320646E, 0x79622D32, 0x6B206574⟩, second, third, ⟨0, 0, 0, 0⟩⟩

/-- The first 64 random bits that a seed number yields. -/
def firstBits (seed : UInt64) : UInt64 :=
  let row := (initial seed).permute.first
  (row.b.toUInt64 <<< 32) ||| row.a.toUInt64

end GrowthGrammar.ChaCha
