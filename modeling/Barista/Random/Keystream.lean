/-
A reproducible stream of random words: ChaCha with twelve rounds.

A block is a function of the key and the block's number, and a draw is a
function of the key and the draw's number, so nothing has to be remembered but
how many draws there were. `Key.ofSeed` spreads a seed of sixty-four bits over
the key.
-/

namespace Barista.Random

abbrev Key := Vector UInt32 8

/-! ## Keys from seeds -/

/-- One step of the congruential generator that the key words are drawn from. -/
def spread (state : UInt64) : UInt64 := state * 6364136223846793005 + 11634580027462260723

/-- The bits of a word, turned right. -/
def turnRight (word places : UInt32) : UInt32 :=
  (word >>> places) ||| (word <<< (32 - places))

/-- The key word that a state of the generator gives. -/
def spreadWord (state : UInt64) : UInt32 :=
  turnRight (((state >>> 18) ^^^ state) >>> 27).toUInt32 (state >>> 59).toUInt32

/-- The key of a seed: the words of the eight states after it. -/
def Key.ofSeed (seed : UInt64) : Key :=
  Vector.ofFn fun i => spreadWord (Nat.repeat spread (i.val + 1) seed)

/-! ## Blocks -/

abbrev Block := Vector UInt32 16

def turnLeft (word places : UInt32) : UInt32 :=
  (word <<< places) ||| (word >>> (32 - places))

/-- Stirs four words of a block together. -/
def quarterRound (b : Block) (i j k l : Fin 16) : Block :=
  let a₁ := b[i] + b[j]
  let d₁ := turnLeft (b[l] ^^^ a₁) 16
  let c₁ := b[k] + d₁
  let b₁ := turnLeft (b[j] ^^^ c₁) 12
  let a₂ := a₁ + b₁
  let d₂ := turnLeft (d₁ ^^^ a₂) 8
  let c₂ := c₁ + d₂
  let b₂ := turnLeft (b₁ ^^^ c₂) 7
  (((b.set i a₂).set j b₂).set k c₂).set l d₂

/-- Stirs the four columns, then the four diagonals. -/
def doubleRound (b : Block) : Block :=
  let b := quarterRound b 0 4 8 12
  let b := quarterRound b 1 5 9 13
  let b := quarterRound b 2 6 10 14
  let b := quarterRound b 3 7 11 15
  let b := quarterRound b 0 5 10 15
  let b := quarterRound b 1 6 11 12
  let b := quarterRound b 2 7 8 13
  quarterRound b 3 4 9 14

/-- What is stirred for one block: four constants, the key, the block's number, and zero for the
stream. -/
def initial (key : Key) (number : UInt64) : Block :=
  (#v[0x61707865, 0x3320646e, 0x79622d32, 0x6b206574] : Vector UInt32 4) ++ key ++
    (#v[number.toUInt32, (number >>> 32).toUInt32, 0, 0] : Vector UInt32 4)

/-- The words of a block: what was stirred added to what it was stirred from. -/
def block (key : Key) (number : UInt64) : Block :=
  let start := initial key number
  Vector.zipWith (· + ·) (Nat.repeat doubleRound 6 start) start

/-- The draw of the given number: two successive words of the stream, the lower half first. -/
def draw (key : Key) (index : Nat) : UInt64 :=
  let words := block key (UInt64.ofNat (index / 8))
  let low := words.getD (2 * (index % 8)) 0
  let high := words.getD (2 * (index % 8) + 1) 0
  low.toUInt64 ||| (high.toUInt64 <<< 32)

end Barista.Random
