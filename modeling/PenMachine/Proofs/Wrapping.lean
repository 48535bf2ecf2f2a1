import Mathlib.Data.Int.ModEq
import PenMachine.Operator
import PenMachine.Proofs.ExactIntegers

/-!
# Wrapping to 32 bits

The bitwise operators work on 32-bit integers, which they get from any numbers by floating-point
arithmetic: the number is cut off towards zero, reduced by `2 ^ 32`, lowered by `2 ^ 32` if it is in
the upper half, and converted with its value held to the range. Each of these steps is exact, also
for numbers far beyond `2 ^ 53`, where every number is an integer (`Number.isInteger_integerPart`),
and the last one never has to hold a value back. So the outcome is the residue of the integer part
that lies between `-2 ^ 31` and `2 ^ 31` (`Number.toInt_toInt32`).
-/

namespace PenMachine

namespace Number

theorem truncate_finite (negative : Bool) (quanta : Nat) (h : Representable quanta) :
    truncate (.finite negative quanta h) = (signed negative quanta).tdiv quantaPerUnit := by
  cases negative with
  | false => simp [truncate, signed]
  | true => simp [truncate, signed, Int.neg_tdiv]

/-- A number is small or an integer. -/
theorem representable_div_mul {quanta : Nat} (h : Representable quanta) :
    Representable (quanta / quantaPerUnit * quantaPerUnit) := by
  by_cases hsmall : quanta / quantaPerUnit ≤ 1 <<< 53
  · exact representable_mul_quantaPerUnit hsmall
  · suffices hdvd : quantaPerUnit ∣ quanta by rwa [Nat.div_mul_cancel hdvd]
    obtain ⟨-, significand, scale, hsignificand, rfl⟩ := h
    have hscale : quantumExponent ≤ scale := by
      by_contra hlt
      have hbound : significand <<< scale ≤ 1 <<< 53 * quantaPerUnit := by
        rw [Nat.shiftLeft_eq, quantaPerUnit, Nat.one_shiftLeft quantumExponent]
        exact Nat.mul_le_mul hsignificand (Nat.pow_le_pow_right (by decide) (by omega))
      exact hsmall (Nat.div_le_of_le_mul (by rwa [Nat.mul_comm] at hbound))
    rw [quantaPerUnit, Nat.one_shiftLeft, Nat.shiftLeft_eq]
    exact Nat.dvd_mul_left_of_dvd (Nat.pow_dvd_pow 2 hscale) significand

/-- The integer part of a finite number is an integer and loses no bits. -/
theorem isInteger_integerPart {x : Number} (h : x.isFinite = true) :
    x.integerPart.IsInteger x.truncate := by
  cases x with
  | nan | infinity => cases h
  | finite negative quanta representable =>
    have hexact :=
      ofRatio_of_representable (representable_div_mul representable) Nat.one_pos negative
    rw [Nat.mul_one] at hexact
    rw [integerPart, hexact]
    constructor
    exact signed_mul_natCast negative (quanta / quantaPerUnit) quantaPerUnit

/-- For integers the remainder is that of the integers. -/
theorem IsInteger.emod {x y : Number} {i j : Int} (hx : x.IsInteger i) (hy : y.IsInteger j)
    (hj : 0 < j) (h : j.natAbs ≤ 1 <<< 53) : (x.emod y).IsInteger (i % j) := by
  have hrest := hx.rem hy (Int.ne_of_gt hj) h
  have hzero : (0 : Number).IsInteger 0 := isInteger_ofNat (by decide)
  have hnonneg := Int.emod_nonneg i (Int.ne_of_gt hj)
  have hlt := Int.emod_lt_of_pos i hj
  have htmod := Int.tmod_eq_emod (a := i) (b := j)
  rw [Number.emod]
  by_cases hnegative : i.tmod j < 0
  · have hmoved : i.tmod j + j.natAbs = i % j := by
      split at htmod <;> omega
    rw [if_pos ((hrest.lt_iff hzero).2 hnegative), ← hmoved]
    exact hrest.add hy.abs (by omega)
  · have hsame : i.tmod j = i % j := by
      split at htmod <;> omega
    rw [if_neg (mt (hrest.lt_iff hzero).1 hnegative), ← hsame]
    exact hrest

/-- Nothing is held back of an integer that fits. -/
theorem IsInteger.clampInt32 {x : Number} {i : Int} (hx : x.IsInteger i) (hlow : -2 ^ 31 ≤ i)
    (hhigh : i < 2 ^ 31) : x.clampInt32.toInt = i := by
  have hvalue := hx.truncate_eq
  obtain ⟨negative, h, rfl, -⟩ := hx.exists_eq
  rw [Number.clampInt32, hvalue]
  exact Int32.toInt_ofIntClamp hlow (Int.le_of_lt_add_one hhigh)

theorem toInt32_of_not_isFinite {x : Number} (h : x.isFinite = false) : x.toInt32 = 0 := by
  simp [toInt32, h]

theorem truncate_of_not_isFinite {x : Number} (h : x.isFinite = false) : x.truncate = 0 := by
  cases x with
  | nan | infinity => rfl
  | finite => cases h

/-- Wrapping takes the remainder of the integer part that is closest to zero. -/
theorem toInt_toInt32 (x : Number) : x.toInt32.toInt = x.truncate.bmod (2 ^ 32) := by
  cases hfinite : x.isFinite with
  | false => rw [toInt32_of_not_isFinite hfinite, truncate_of_not_isFinite hfinite]; rfl
  | true =>
    have hmodulus : (4294967296 : Number).IsInteger 4294967296 := isInteger_ofNat (by decide)
    have hhalf : (2147483648 : Number).IsInteger 2147483648 := isInteger_ofNat (by decide)
    have hrest := (isInteger_integerPart hfinite).emod hmodulus (by decide) (by decide)
    have hbmod := Int.bmod_def x.truncate (2 ^ 32)
    rw [toInt32, if_pos hfinite]
    dsimp only
    by_cases hupper : 2147483648 ≤ x.truncate % 4294967296
    · rw [if_pos ((hhalf.le_iff hrest).2 hupper)]
      rw [(hrest.sub hmodulus (by omega)).clampInt32 (by omega) (by omega)]
      omega
    · rw [if_neg (mt (hhalf.le_iff hrest).1 hupper)]
      rw [hrest.clampInt32 (by omega) (by omega)]
      omega

/-- The 32 bits of a number are those of its integer part in two's complement. -/
theorem toBitVec_toInt32 (x : Number) : x.toInt32.toBitVec = BitVec.ofInt 32 x.truncate := by
  apply BitVec.eq_of_toInt_eq
  rw [Int32.toInt_toBitVec, toInt_toInt32, BitVec.toInt_ofInt]

theorem toInt32_eq_iff (x : Number) (i : Int) : x.toInt32.toInt = i ↔
    -2 ^ 31 ≤ i ∧ i < 2 ^ 31 ∧ i ≡ x.truncate [ZMOD 2 ^ 32] := by
  rw [toInt_toInt32, Int.bmod_eq_iff (by decide), Int.modEq_comm, Int.modEq_iff_dvd]
  rfl

theorem toInt32_congr {x x' : Number} (h : x.truncate ≡ x'.truncate [ZMOD 2 ^ 32]) :
    x.toInt32 = x'.toInt32 := by
  apply Int32.toInt.inj
  obtain ⟨hlow, hhigh, hmod⟩ := (toInt32_eq_iff x' _).1 rfl
  exact (toInt32_eq_iff x _).2 ⟨hlow, hhigh, hmod.trans h.symm⟩

end Number

namespace Operator

open Number

/-- The bitwise operators, each with what it does to 32 bits. -/
def bitwise : List (Operator × (BitVec 32 → BitVec 32 → BitVec 32)) :=
  [(.and, (· &&& ·)), (.or, (· ||| ·)), (.xor, (· ^^^ ·))]

/-- Both operands are wrapped before their bits are combined. -/
theorem apply_bitwise {entry : Operator × (BitVec 32 → BitVec 32 → BitVec 32)}
    (h : entry ∈ bitwise) (x y : Number) :
    entry.1.apply x y =
      ofInt32 (.ofBitVec (entry.2 x.toInt32.toBitVec y.toInt32.toBitVec)) := by
  simp only [bitwise, List.mem_cons, List.not_mem_nil, or_false] at h
  rcases h with rfl | rfl | rfl <;> rfl

theorem ofInt32_eq (i : Int32) :
    ∃ h, ofInt32 i = .finite (i.toInt < 0) (i.toInt.natAbs * quantaPerUnit) h := by
  have hlow := i.le_toInt
  have hhigh := i.toInt_lt
  have hsmall : i.toInt.natAbs ≤ 1 <<< 53 := by
    rw [Nat.one_shiftLeft]
    omega
  exact ⟨_, ofInt_eq hsmall⟩

/-- The integer part is the exact value cut off towards zero, and NaN and the infinities count as
zero. Wrapping gives the one integer of the 32-bit range that is congruent to it. The bitwise
operators work on the 32 bits of the integer parts, give the integer of that range that has the
resulting bits, and see of a finite operand no more than its integer part modulo `2 ^ 32`. -/
theorem bitwise_on_wrapped_integers :
    (∀ negative quanta h, truncate (.finite negative quanta h) =
      (signed negative quanta).tdiv quantaPerUnit) ∧
    (∀ x : Number, x.isFinite = false → x.toInt32 = 0 ∧ x.truncate = 0) ∧
    (∀ x : Number, x.isFinite = true → ∀ i : Int, x.toInt32.toInt = i ↔
      -2 ^ 31 ≤ i ∧ i < 2 ^ 31 ∧ i ≡ x.truncate [ZMOD 2 ^ 32]) ∧
    ∀ entry ∈ bitwise,
      (∀ x y : Number, ∃ (i : Int) (h : Representable (i.natAbs * quantaPerUnit)),
        entry.1.apply x y = .finite (i < 0) (i.natAbs * quantaPerUnit) h ∧
        -2 ^ 31 ≤ i ∧ i < 2 ^ 31 ∧
        BitVec.ofInt 32 i = entry.2 (.ofInt 32 x.truncate) (.ofInt 32 y.truncate)) ∧
      ∀ x x' y : Number, x.isFinite = true → x'.isFinite = true →
        x.truncate ≡ x'.truncate [ZMOD 2 ^ 32] →
        entry.1.apply x y = entry.1.apply x' y ∧ entry.1.apply y x = entry.1.apply y x' := by
  refine ⟨truncate_finite, fun x hx ↦ ⟨toInt32_of_not_isFinite hx, truncate_of_not_isFinite hx⟩,
    fun x _ ↦ toInt32_eq_iff x, fun entry hentry ↦ ⟨fun x y ↦ ?_, fun x x' y _ _ hmod ↦ ?_⟩⟩
  · obtain ⟨h, hvalue⟩ :=
      ofInt32_eq (.ofBitVec (entry.2 x.toInt32.toBitVec y.toInt32.toBitVec))
    refine ⟨_, h, (apply_bitwise hentry x y).trans hvalue, Int32.le_toInt _, Int32.toInt_lt _, ?_⟩
    rw [← Int32.toInt_toBitVec, BitVec.ofInt_toInt, Int32.toBitVec_ofBitVec, toBitVec_toInt32,
      toBitVec_toInt32]
  · have hsame := toInt32_congr hmod
    simp only [apply_bitwise hentry, hsame, and_self]

/-- A number below `-2 ^ 32` that is no integer and wraps to the largest one. -/
def farNegative : Number := ofInt (-12884901891) / 2

/-- The half of a far integer is cut off and wraps to `2 ^ 31 - 1`, and an infinity counts as zero.
-/
theorem bitwise_on_farNegative :
    farNegative.isFinite = true ∧ farNegative.toInt32.toInt = 2147483647 ∧
      Number.nan.toInt32 = 0 ∧ (xor, (· ^^^ ·)) ∈ bitwise ∧
      xor.apply farNegative (.infinity true) = xor.apply 2147483647 (.infinity true) := by
  obtain ⟨-, hother, hwrap, hbitwise⟩ := bitwise_on_wrapped_integers
  have hfinite : farNegative.isFinite = true := by decide +kernel
  have hlargest : (2147483647 : Number).isFinite = true := by decide +kernel
  have hmod : farNegative.truncate ≡ 2147483647 [ZMOD 2 ^ 32] := by decide +kernel
  have hmod' : farNegative.truncate ≡ truncate 2147483647 [ZMOD 2 ^ 32] := by decide +kernel
  have hxor : (xor, (· ^^^ ·)) ∈ bitwise := by simp [bitwise]
  refine ⟨hfinite, (hwrap _ hfinite _).2 ⟨by decide, by decide, hmod.symm⟩, (hother _ rfl).1, hxor,
    ?_⟩
  exact ((hbitwise _ hxor).2 _ _ _ hfinite hlargest hmod').1

end Operator

end PenMachine
