import PenMachine.Number.Basic

/-!
# Random numbers

A reproducible stream of numbers from 0 up to 1. A linear congruential sequence stretches the seed
to a 256-bit key, and ChaCha with twelve rounds stretches the key to blocks of sixteen words, two
words to a draw. A draw depends on the seed and on how many were made before, and on nothing else,
so that is all a generator holds.
-/

namespace PenMachine.Random

def rotateLeft (x : UInt32) (n : UInt32) : UInt32 := (x <<< n) ||| (x >>> (32 - n))

def rotateRight (x : UInt32) (n : UInt32) : UInt32 := (x >>> n) ||| (x <<< (32 - n))

/-- One step of the sequence that stretches the seed. -/
def advance (state : UInt64) : UInt64 := state * 6364136223846793005 + 11634580027462260723

/-- The word a state of that sequence gives: its high bits, rotated by its highest ones. -/
def permute (state : UInt64) : UInt32 :=
  rotateRight (((state >>> 18) ^^^ state) >>> 27).toUInt32 (state >>> 59).toUInt32

/-- Word `i` of the key comes from the state after `i + 1` steps. -/
def key (seed : UInt64) : Vector UInt32 8 :=
  Vector.ofFn fun i ↦ permute (Nat.repeat advance (i + 1) seed)

abbrev Block := Vector UInt32 16

def quarterRound (a b c d : Fin 16) (s : Block) : Block :=
  let s := s.set a (s.get a + s.get b)
  let s := s.set d (rotateLeft (s.get d ^^^ s.get a) 16)
  let s := s.set c (s.get c + s.get d)
  let s := s.set b (rotateLeft (s.get b ^^^ s.get c) 12)
  let s := s.set a (s.get a + s.get b)
  let s := s.set d (rotateLeft (s.get d ^^^ s.get a) 8)
  let s := s.set c (s.get c + s.get d)
  s.set b (rotateLeft (s.get b ^^^ s.get c) 7)

/-- Two rounds: one down the columns of the four-by-four square, one along its diagonals. -/
def doubleRound (s : Block) : Block :=
  s |> quarterRound 0 4 8 12 |> quarterRound 1 5 9 13 |> quarterRound 2 6 10 14
    |> quarterRound 3 7 11 15 |> quarterRound 0 5 10 15 |> quarterRound 1 6 11 12
    |> quarterRound 2 7 8 13 |> quarterRound 3 4 9 14

/-- The square before the rounds: four constants, the key, the block's number, and zeros. -/
def start (key : Vector UInt32 8) (number : UInt64) : Block :=
  #v[0x61707865, 0x3320646e, 0x79622d32, 0x6b206574,
    key[0], key[1], key[2], key[3], key[4], key[5], key[6], key[7],
    number.toUInt32, (number >>> 32).toUInt32, 0, 0]

def block (key : Vector UInt32 8) (number : UInt64) : Block :=
  let initial := start key number
  Vector.zipWith (· + ·) initial (Nat.repeat doubleRound 6 initial)

/-- Draw number `n` as a whole number below `2 ^ 53`: the high bits of two successive words. -/
def drawBits (seed : UInt64) (n : Nat) : Nat :=
  let words := block (key seed) (n / 8).toUInt64
  let low := words.get ⟨2 * (n % 8), by omega⟩
  let high := words.get ⟨2 * (n % 8) + 1, by omega⟩
  ((high.toNat <<< 32) + low.toNat) >>> 11

/-- Draw number `n`, counted from zero. -/
def draw (seed : UInt64) (n : Nat) : Number :=
  .ofRatio false (drawBits seed n * quantaPerUnit) (1 <<< 53)

/-- A place in the stream of a seed. -/
structure Generator where
  seed : UInt64
  drawn : Nat
  deriving DecidableEq

/-- The next draw, and the place after it. -/
def Generator.next (g : Generator) : Number × Generator :=
  (draw g.seed g.drawn, { g with drawn := g.drawn + 1 })

end PenMachine.Random
