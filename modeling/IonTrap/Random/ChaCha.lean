/-!
# A seeded stream of random words

The ChaCha block function with 12 rounds, keyed by 8 words that a congruential generator derives
from a 64-bit seed. The stream is the words of the blocks number 0, 1, 2, and so on.
-/

namespace IonTrap

/-- The 16 words of a block. -/
abbrev ChaChaBlock := Vector UInt32 16

namespace ChaChaBlock

/-- Rotates a word to the left. -/
def rotate (x : UInt32) (amount : UInt32) : UInt32 := x <<< amount ||| x >>> (32 - amount)

/-- Adds word `y` to word `x`, xors the sum into word `z` and rotates that. -/
def stir (s : ChaChaBlock) (x y z : Fin 16) (amount : UInt32) : ChaChaBlock :=
  let s := s.set x (s[x] + s[y])
  s.set z (rotate (s[z] ^^^ s[x]) amount)

/-- Mixes four words. -/
def quarterRound (s : ChaChaBlock) (a b c d : Fin 16) : ChaChaBlock :=
  (((s.stir a b d 16).stir c d b 12).stir a b d 8).stir c d b 7

/-- Mixes the columns and then the diagonals. -/
def doubleRound (s : ChaChaBlock) : ChaChaBlock :=
  let s := s.quarterRound 0 4 8 12
  let s := s.quarterRound 1 5 9 13
  let s := s.quarterRound 2 6 10 14
  let s := s.quarterRound 3 7 11 15
  let s := s.quarterRound 0 5 10 15
  let s := s.quarterRound 1 6 11 12
  let s := s.quarterRound 2 7 8 13
  s.quarterRound 3 4 9 14

/-- Applies double rounds. -/
def rounds : Nat → ChaChaBlock → ChaChaBlock
  | 0, s => s
  | k + 1, s => rounds k s.doubleRound

/-- Block number `counter` under a key: 12 rounds on constants, key and counter, added to them. -/
def ofKey (key : Vector UInt32 8) (counter : UInt64) : ChaChaBlock :=
  let input : ChaChaBlock :=
    #v[0x61707865, 0x3320646e, 0x79622d32, 0x6b206574,
      key[0], key[1], key[2], key[3], key[4], key[5], key[6], key[7],
      counter.toUInt32, (counter >>> 32).toUInt32, 0, 0]
  (rounds 6 input).zipWith (· + ·) input

end ChaChaBlock

/-- A stream of random words: what is left of the current block, and the number of the next. -/
structure RandomWords where
  /-- Key of the blocks. -/
  key : Vector UInt32 8
  /-- Number of the next block. -/
  counter : UInt64
  /-- Words not yet drawn. -/
  buffer : List UInt32
deriving DecidableEq, Repr

namespace RandomWords

/-- The next state of the generator that spreads a seed. -/
def spread (s : UInt64) : UInt64 := s * 6364136223846793005 + 11634580027462260723

/-- The word that the generator gives in a state: xored, shifted and rotated by its top bits. -/
def output (s : UInt64) : UInt32 :=
  let x := (((s >>> 18) ^^^ s) >>> 27).toUInt32
  let amount := (s >>> 59).toUInt32
  x >>> amount ||| x <<< (32 - amount)

/-- The stream of a seed. -/
def ofSeed (seed : Nat) : RandomWords :=
  let s₀ := spread seed.toUInt64
  let s₁ := spread s₀
  let s₂ := spread s₁
  let s₃ := spread s₂
  let s₄ := spread s₃
  let s₅ := spread s₄
  let s₆ := spread s₅
  let s₇ := spread s₆
  ⟨#v[output s₀, output s₁, output s₂, output s₃, output s₄, output s₅, output s₆, output s₇],
    0, []⟩

/-- Draws a word. -/
def next (r : RandomWords) : UInt32 × RandomWords :=
  match r.buffer with
  | x :: xs => (x, { r with buffer := xs })
  | [] =>
    let block := ChaChaBlock.ofKey r.key r.counter
    (block[0], { r with counter := r.counter + 1, buffer := block.toList.drop 1 })

end RandomWords

end IonTrap
