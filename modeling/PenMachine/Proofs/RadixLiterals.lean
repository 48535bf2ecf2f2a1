import Mathlib.Data.Nat.Digits.Defs
import PenMachine.Proofs.ExactIntegers
import PenMachine.Proofs.NumberGrammar

/-!
# Integers with a radix prefix

The digits of a hexadecimal, octal or binary integer are taken in one at a time, in floating point,
and each step rounds. The integer read so far only grows (`Literal.le_accumulate`), so if the whole
is at most `2 ^ 53` then so is every product and every sum on the way, and nothing is ever rounded
(`Literal.isInteger_accumulate`). The number of digits does not matter: leading zeros keep the sum
at zero.
-/

namespace PenMachine

namespace Literal

/-- The value of a digit is its place among the sixteen, where the case of a letter is no matter. -/
def digitRank (c : Char) : Nat := "0123456789abcdef".toList.idxOf c.toLower

/-- The integer that digits write in a radix, the most significant one first. -/
def writtenInteger (radix : Nat) (digits : List Char) : Nat :=
  Nat.ofDigits radix (digits.map digitRank).reverse

theorem digitRank_of_digitValue? {c : Char} {digit : Nat} (h : digitValue? c = some digit) :
    digitRank c = digit := by
  have hagree : ∀ n < 128, (digitValue? (Char.ofNat n)).all (digitRank (Char.ofNat n) = ·) := by
    decide +kernel
  have hvalue := hagree c.toNat (ascii_of_digitValue? h)
  rw [Char.ofNat_toNat, h] at hvalue
  simpa using hvalue

section Integer

variable {radix : Nat} {marks alphabet : String} (known : (radix, marks, alphabet) ∈ radixes)

include known

/-- No digit of a radix is blank, and no letter that announces it. -/
theorem isBlank_of_mem_radixes : ∀ c ∈ '0' :: marks.toList ++ alphabet.toList,
    Text.isBlank c = false := by
  have hall : ∀ entry ∈ radixes, ('0' :: entry.2.1.toList ++ entry.2.2.toList).all
      (Text.isBlank · = false) = true := by
    decide +kernel
  exact Text.forall_mem_of_all (hall _ known)

/-- The digits of a radix have values below it. -/
theorem digitRank_spec {c : Char} (h : c ∈ alphabet.toList) :
    digitValue? c = some (digitRank c) ∧ digitRank c < radix := by
  obtain ⟨digit, hvalue, hlt⟩ := (mem_alphabet_iff known c).1 h
  rw [digitRank_of_digitValue? hvalue]
  exact ⟨hvalue, hlt⟩

theorem digitRank_lt {digits : List Char} (plain : ∀ c ∈ digits, c ∈ alphabet.toList) :
    ∀ digit ∈ digits.map digitRank, digit < radix := by
  intro digit hdigit
  obtain ⟨c, hc, rfl⟩ := List.mem_map.1 hdigit
  exact (digitRank_spec known (plain c hc)).2

/-- Digits of a radix are an integer of it. -/
theorem integer?_eq {digits : List Char} (nonempty : digits ≠ [])
    (plain : ∀ c ∈ digits, c ∈ alphabet.toList) :
    integer? radix digits = some (.integer radix (digits.map digitRank)) := by
  apply integer?_eq_some_iff.2
  refine ⟨_, rfl, by simpa using nonempty, digitRank_lt known plain, ?_⟩
  rw [List.map_map]
  apply List.map_congr_left
  intro c hc
  exact (digitRank_spec known (plain c hc)).1

/-- A zero, a letter and digits are read as the integer that the letter announces. -/
theorem parse_integer {mark : Char} (marked : mark ∈ marks.toList) {digits : List Char}
    (nonempty : digits ≠ []) (plain : ∀ c ∈ digits, c ∈ alphabet.toList) :
    Number.parse (String.ofList ('0' :: mark :: digits)) =
      (Literal.integer radix (digits.map digitRank)).value := by
  have htrim : Text.trim ('0' :: mark :: digits) = '0' :: mark :: digits := by
    apply Text.trim_of_plain
    intro c hc
    apply isBlank_of_mem_radixes known c
    simp only [List.mem_cons, List.mem_append] at hc ⊢
    rcases hc with rfl | rfl | hc
    · exact .inl (.inl rfl)
    · exact .inl (.inr marked)
    · exact .inr (plain c hc)
  have hradix : radix? mark = some radix := radix?_eq_some_iff.2 ⟨marks, alphabet, known, marked⟩
  have hliteral : ofChars? ('0' :: mark :: digits) =
      some (.integer radix (digits.map digitRank)) := by
    simp [ofChars?, splitSign, hradix, integer?_eq known nonempty plain]
  rw [Number.parse, String.toList_ofList, htrim, hliteral]

end Integer

/-- The integer read so far, after some more digits. -/
def accumulate (radix : Nat) (digits : List Nat) (n : Nat) : Nat :=
  digits.foldl (fun n digit ↦ digit + radix * n) n

theorem accumulate_zero (radix : Nat) (digits : List Nat) :
    accumulate radix digits 0 = Nat.ofDigits radix digits.reverse := by
  rw [Nat.ofDigits_eq_foldr, List.foldr_reverse]
  rfl

theorem le_accumulate {radix : Nat} (hpos : 0 < radix) (digits : List Nat) (n : Nat) :
    n ≤ accumulate radix digits n := by
  induction digits generalizing n with
  | nil => exact Nat.le_refl n
  | cons digit digits ih =>
    calc
      n ≤ radix * n := Nat.le_mul_of_pos_left n hpos
      _ ≤ digit + radix * n := Nat.le_add_left _ digit
      _ ≤ accumulate radix digits (digit + radix * n) := ih _

/-- The digits of an integer up to `2 ^ 53` are taken in exactly. -/
theorem isInteger_accumulate {radix : Nat} (hpos : 0 < radix) (hradix : radix < 1 <<< 53)
    (digits : List Nat) {x : Number} {n : Nat} (hx : x.IsInteger n)
    (h : accumulate radix digits n ≤ 1 <<< 53) :
    (digits.foldl (fun x digit ↦ x * .ofInt radix + .ofInt digit) x).IsInteger
      (accumulate radix digits n) := by
  induction digits generalizing x n with
  | nil => exact hx
  | cons digit digits ih =>
    have hsum : digit + radix * n ≤ 1 <<< 53 := Nat.le_trans (le_accumulate hpos digits _) h
    have hr : (Number.ofInt radix).IsInteger radix := Number.isInteger_ofInt (Nat.le_of_lt hradix)
    have hd : (Number.ofInt digit).IsInteger digit :=
      Number.isInteger_ofInt (Nat.le_trans (Nat.le_add_right _ _) hsum)
    have hproduct : (x * .ofInt radix).IsInteger (n * radix : Nat) := by
      have hsmall : n * radix ≤ 1 <<< 53 := by
        rw [Nat.mul_comm]
        exact Nat.le_trans (Nat.le_add_left _ _) hsum
      exact hx.mul hr hsmall
    have hnext : (x * .ofInt radix + .ofInt digit).IsInteger (digit + radix * n : Nat) := by
      rw [Nat.add_comm, Nat.mul_comm] at hsum ⊢
      exact hproduct.add hd hsum
    exact ih hnext h

end Literal

/-- An integer with a radix prefix is read exactly if it is at most `2 ^ 53`, however many digits it
has. -/
theorem Number.parse_radix_exact {radix : Nat} {marks alphabet : String} {mark : Char}
    {digits : List Char} (known : (radix, marks, alphabet) ∈ Literal.radixes)
    (marked : mark ∈ marks.toList) (nonempty : digits ≠ [])
    (plain : ∀ c ∈ digits, c ∈ alphabet.toList)
    (bounded : Literal.writtenInteger radix digits ≤ 2 ^ 53) :
    ∃ h, parse (String.ofList ('0' :: mark :: digits)) =
      .finite false (Literal.writtenInteger radix digits * quantaPerUnit) h := by
  obtain ⟨hpos, hradix⟩ := Literal.radix_bounds known
  rw [Literal.parse_integer known marked nonempty plain]
  rw [Literal.writtenInteger, ← Literal.accumulate_zero] at bounded ⊢
  have hinteger := Literal.isInteger_accumulate hpos hradix _ (isInteger_ofNat (Nat.zero_le _))
    bounded
  have hunsigned := Literal.isUnsigned_foldl hpos hradix (Literal.digitRank_lt known plain)
    .zero
  exact hinteger.eq_of_isUnsigned hunsigned

/-- Leading zeros and letters of either case, and the bound itself. -/
theorem Number.parse_radix_exact_upToBound :
    (16, "xX", "0123456789abcdefABCDEF") ∈ Literal.radixes ∧
    (∃ h, parse (String.ofList ('0' :: 'X' :: "00001fFfFfFfFfFfFf".toList)) =
      .finite false (9007199254740991 * quantaPerUnit) h) ∧
    ∃ h, parse (String.ofList ('0' :: 'x' :: "20000000000000".toList)) =
      .finite false (2 ^ 53 * quantaPerUnit) h := by
  have hknown : (16, "xX", "0123456789abcdefABCDEF") ∈ Literal.radixes := by decide
  have hbelow : Literal.writtenInteger 16 "00001fFfFfFfFfFfFf".toList = 9007199254740991 := by
    decide +kernel
  have hbound : Literal.writtenInteger 16 "20000000000000".toList = 2 ^ 53 := by decide +kernel
  refine ⟨hknown, ?_, ?_⟩
  · rw [← hbelow]
    exact parse_radix_exact hknown (by decide) (by decide) (Text.forall_mem_of_all (by decide))
      (by rw [hbelow]; decide)
  · rw [← hbound]
    exact parse_radix_exact hknown (by decide) (by decide) (Text.forall_mem_of_all (by decide))
      hbound.le

end PenMachine
