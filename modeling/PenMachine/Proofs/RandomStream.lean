import PenMachine.Proofs.Rounding
import PenMachine.Random

/-!
# The stream of random numbers

A generator knows its seed and how many numbers it has drawn, and works out the next one from these
two. An ordinary generator makes some blocks ahead, keeps their words in a buffer, hands them out
two by two and makes more blocks when it runs out. Both give the same numbers, however many blocks
are made at a time (`Random.Reader.bits_start`), since the words of the blocks form one stream that
goes on across the ends of blocks and buffers.

Each number has 53 bits behind the point, so it is a double-precision number as it is, and nothing
is rounded (`Random.draw_eq`).
-/

namespace PenMachine

namespace Random

/-- Word `j` of all blocks in a row. -/
def word (key : Vector UInt32 8) (j : Nat) : UInt32 :=
  (block key (j / 16).toUInt64).get ⟨j % 16, Nat.mod_lt j (by decide)⟩

/-- Two words make the 53 bits of a number. -/
def bitsOf (low high : UInt32) : Nat := ((high.toNat <<< 32) + low.toNat) >>> 11

theorem toList_block (key : Vector UInt32 8) (n : Nat) :
    (block key n.toUInt64).toList = (List.range' (16 * n) 16).map (word key) := by
  apply List.ext_getElem
  · simp
  · intro i hi _
    have hlt : i < 16 := by simpa using hi
    have hblock : (16 * n + i) / 16 = n := by omega
    have hplace : (16 * n + i) % 16 = i := by omega
    simp [word, hblock, hplace, Vector.get]

/-- Draw number `n` is made of the words of its place. -/
theorem drawBits_eq (seed : UInt64) (n : Nat) :
    drawBits seed n = bitsOf (word (key seed) (2 * n)) (word (key seed) (2 * n + 1)) := by
  have hlow : 2 * n / 16 = n / 8 ∧ 2 * n % 16 = 2 * (n % 8) := by omega
  have hhigh : (2 * n + 1) / 16 = n / 8 ∧ (2 * n + 1) % 16 = 2 * (n % 8) + 1 := by omega
  simp only [drawBits, bitsOf, word, hlow, hhigh]

theorem bitsOf_lt (low high : UInt32) : bitsOf low high < 1 <<< 53 := by
  have hlow := low.toNat_lt
  have hhigh := high.toNat_lt
  rw [bitsOf, Nat.shiftLeft_eq, Nat.shiftRight_eq_div_pow, Nat.shiftLeft_eq]
  omega

theorem drawBits_lt (seed : UInt64) (n : Nat) : drawBits seed n < 1 <<< 53 := by
  rw [drawBits_eq]
  exact bitsOf_lt _ _

/-- So many quanta make a number of which 53 bits are behind the point. -/
theorem shiftLeft_mul_eq (n : Nat) : n <<< 1021 * 1 <<< 53 = n * quantaPerUnit :=
  shiftLeft_mul_one_shiftLeft n 1021 53

/-- The number is its 53 bits behind the point, with nothing rounded. -/
theorem draw_eq (seed : UInt64) (n : Nat) :
    ∃ h, draw seed n = .finite false (drawBits seed n <<< 1021) h := by
  have hbits := drawBits_lt seed n
  rw [draw, ← shiftLeft_mul_eq]
  generalize drawBits seed n = bits at hbits ⊢
  apply Number.ofRatio_of_dvd (by decide) (log2_scale_dvd hbits 1021)
  exact shiftLeft_lt hbits (by decide)

/-- The number of the block to be made next, and the words that are ready. -/
structure Reader where
  number : Nat
  words : List UInt32

namespace Reader

/-- Makes some more blocks. -/
def refill (key : Vector UInt32 8) (blocks : Nat) (r : Reader) : Reader where
  number := r.number + blocks
  words := r.words ++ (List.range' r.number blocks).flatMap fun n ↦ (block key n.toUInt64).toList

/-- Hands out two words, after making more blocks if there are fewer in the buffer. A word that is
left over is the first of the two. -/
def next (key : Vector UInt32 8) (blocks : Nat) (r : Reader) : Nat × Reader :=
  let ready := if r.words.length < 2 then r.refill key blocks else r
  match ready.words with
  | low :: high :: rest => (bitsOf low high, { ready with words := rest })
  | _ => (0, ready)

def bits (key : Vector UInt32 8) (blocks : Nat) (r : Reader) : Nat → List Nat
  | 0 => []
  | n + 1 => (r.next key blocks).1 :: bits key blocks (r.next key blocks).2 n

/-- Whether the words that are ready are those of the stream from place `j` on. -/
structure At (key : Vector UInt32 8) (j : Nat) (r : Reader) : Prop where
  le : j ≤ 16 * r.number
  words : r.words = (List.range' j (16 * r.number - j)).map (word key)

variable {key : Vector UInt32 8} {j blocks : Nat} {r : Reader}

/-- Blocks in a row are one stretch of the stream. -/
theorem flatMap_block (key : Vector UInt32 8) (first blocks : Nat) :
    ((List.range' first blocks).flatMap fun n ↦ (block key n.toUInt64).toList) =
      (List.range' (16 * first) (16 * blocks)).map (word key) := by
  induction blocks generalizing first with
  | zero => rfl
  | succ blocks ih =>
    have hsplit : List.range' (16 * first) (16 * (blocks + 1)) =
        List.range' (16 * first) 16 ++ List.range' (16 * (first + 1)) (16 * blocks) := by
      rw [Nat.mul_succ 16 first, List.range'_append_1, Nat.mul_succ, Nat.add_comm 16]
    rw [List.range'_succ, List.flatMap_cons, ih, toList_block, hsplit, List.map_append]

/-- More blocks go on where the others end. -/
theorem At.refill (h : At key j r) (blocks : Nat) : At key j (r.refill key blocks) where
  le := Nat.le_trans h.le (Nat.mul_le_mul_left 16 (Nat.le_add_right r.number blocks))
  words := by
    have hle := h.le
    have hend : 16 * r.number = j + (16 * r.number - j) := by omega
    have hlength : 16 * (r.number + blocks) - j = 16 * r.number - j + 16 * blocks := by omega
    rw [Reader.refill, hlength, ← List.range'_append_1, ← hend, List.map_append, h.words,
      flatMap_block]

/-- Two words are handed out, and the next are those behind them. -/
theorem At.next (h : At key j r) (hblocks : 0 < blocks) :
    (r.next key blocks).1 = bitsOf (word key j) (word key (j + 1)) ∧
      At key (j + 2) (r.next key blocks).2 := by
  -- Whether or not more blocks are made, the buffer then has two words of the same stream.
  obtain ⟨ready, hready, hat, hlength⟩ : ∃ ready,
      ready = (if r.words.length < 2 then r.refill key blocks else r) ∧ At key j ready ∧
        j + 2 ≤ 16 * ready.number := by
    refine ⟨_, rfl, ?_⟩
    have hle := h.le
    split
    · refine ⟨h.refill blocks, ?_⟩
      change j + 2 ≤ 16 * (r.number + blocks)
      omega
    · rename_i hwords
      have hlength : r.words.length = 16 * r.number - j := by simp [h.words]
      exact ⟨h, by omega⟩
  obtain ⟨left, hleft⟩ : ∃ left, 16 * ready.number - j = left + 2 :=
    ⟨16 * ready.number - (j + 2), by omega⟩
  have hwords := hat.words
  rw [hleft, List.range'_succ, List.range'_succ, List.map_cons, List.map_cons] at hwords
  rw [Reader.next, ← hready]
  simp only [hwords]
  have hrest : 16 * ready.number - (j + 2) = left := by omega
  exact ⟨trivial, hlength, by simp only [hrest]⟩

/-- A reader at a draw goes on with the draws from there, however many blocks it makes at a time. -/
theorem At.bits {seed : UInt64} {n : Nat} (h : At (Random.key seed) (2 * n) r)
    (hblocks : 0 < blocks) (count : Nat) :
    r.bits (Random.key seed) blocks count = (List.range' n count).map (drawBits seed) := by
  induction count generalizing n r with
  | zero => rfl
  | succ count ih =>
    obtain ⟨hbits, hnext⟩ := h.next hblocks
    have hplace : At (Random.key seed) (2 * (n + 1)) (r.next (Random.key seed) blocks).2 := hnext
    rw [Reader.bits, hbits, ih hplace, List.range'_succ, List.map_cons, drawBits_eq]

/-- Blocks made ahead give the same numbers as blocks made one by one when they are needed. -/
theorem bits_start (seed : UInt64) (hblocks : 0 < blocks) (n : Nat) :
    bits (Random.key seed) blocks ⟨0, []⟩ n = (List.range n).map (drawBits seed) := by
  have hstart : At (Random.key seed) (2 * 0) ⟨0, []⟩ := ⟨Nat.le_refl 0, rfl⟩
  rw [hstart.bits hblocks, List.range_eq_range']

end Reader

end Random

end PenMachine
