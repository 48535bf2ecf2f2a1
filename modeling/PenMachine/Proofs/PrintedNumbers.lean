import Mathlib.Data.List.Forall2
import PenMachine.Proofs.Denotation
import PenMachine.Proofs.ExactIntegers
import PenMachine.Proofs.RoundTrip
import PenMachine.Terminal.Console

/-!
# Printed numbers

The text of a number reads back as that number (`Number.parse_toText`). The decimal it is printed
from rounds to the number, since the search for a short one keeps only those that do and falls back
on the exact one (`Number.toNumber_shortestDecimal`). The layout of a decimal is read as the decimal
with its zeros written out (`Decimal.ofChars?_layout`), which rounds to the same number. Only the
sign of zero is lost, so the text tells apart just the numbers that are not equal.

The text is also a word, whatever stands around it. So it can be typed as an operand again wherever
it was shown.
-/

namespace PenMachine

theorem Number.neg_ofRatio (num den : Nat) :
    (ofRatio false num den).neg = ofRatio true num den := by
  unfold ofRatio
  split
  · rfl
  · rfl

namespace Decimal

theorem neg_toNumber (d : Decimal) : (d.toNumber false).neg = d.toNumber true := by
  simp only [toNumber, apply_ite Number.neg, Number.neg_ofRatio]
  rfl

/-- A decimal that is a positive number is not beyond all finite numbers. -/
theorem exponent_le_of_toNumber {d : Decimal} {quanta : Nat}
    {representable : Representable quanta}
    (h : d.toNumber false = .finite false quanta representable) (hquanta : quanta ≠ 0) :
    d.exponent ≤ 400 := by
  have hne : d.digits ≠ 0 := by
    intro hzero
    rw [toNumber, if_pos hzero] at h
    cases h
    exact hquanta rfl
  rw [← Int.not_lt]
  intro hlarge
  rw [toNumber, if_neg hne, if_pos hlarge] at h
  cases h

/-- The decimal with its zeros written out, so that it is a whole number or has them behind the
point. -/
def expanded (d : Decimal) : Decimal := ⟨d.digits * Nat.pow 10 d.exponent.toNat, min d.exponent 0⟩

theorem expanded_of_nonpos {d : Decimal} (h : d.exponent ≤ 0) : d.expanded = d := by
  rw [expanded, Int.toNat_of_nonpos h, Int.min_eq_left h, Nat.pow_eq, Nat.pow_zero, Nat.mul_one]

theorem expanded_of_nonneg {d : Decimal} (h : 0 ≤ d.exponent) :
    d.expanded = ⟨d.digits * Nat.pow 10 d.exponent.toNat, 0⟩ := by
  rw [expanded, Int.min_eq_right h]

/-- Zeros that are written out change nothing, as long as the decimal is not beyond all numbers. -/
theorem toNumber_expanded {d : Decimal} (h : d.exponent ≤ 400) (negative : Bool) :
    d.expanded.toNumber negative = d.toNumber negative := by
  rcases Int.le_total d.exponent 0 with hneg | hpos
  · rw [expanded_of_nonpos hneg]
  · have hzero : d.digits * Nat.pow 10 d.exponent.toNat = 0 ↔ d.digits = 0 := by
      have hpow : Nat.pow 10 d.exponent.toNat ≠ 0 := Nat.ne_of_gt (Nat.pow_pos (by decide))
      rw [Nat.mul_eq_zero, or_iff_left hpow]
    have hsmall (n : Nat) : ¬ d.exponent < -((n + 400 : Nat) : Int) := by omega
    have hsmall' (n : Nat) : ¬ (0 : Int) < -((n + 400 : Nat) : Int) := by omega
    simp only [expanded_of_nonneg hpos, toNumber, hzero, hsmall, hsmall', Int.not_lt.2 h, if_false]
    simp [Int.toNat_of_nonpos (Int.neg_nonpos_of_nonneg hpos)]

end Decimal

namespace Number

theorem toNumber_exactDecimal {quanta : Nat} (representable : Representable quanta)
    (h : quanta ≠ 0) :
    (exactDecimal quanta).toNumber false = .finite false quanta representable := by
  unfold exactDecimal Decimal.toNumber quantaPerUnit
  generalize quantumExponent = k
  simp only [Nat.pow_eq, Nat.one_shiftLeft]
  have hpow : 2 ^ k ≤ quanta * 5 ^ k :=
    calc 2 ^ k
        ≤ 5 ^ k := Nat.pow_le_pow_left (by decide) k
      _ ≤ quanta * 5 ^ k := Nat.le_mul_of_pos_left _ (Nat.pos_of_ne_zero h)
  have hne : quanta * 5 ^ k ≠ 0 := Nat.ne_of_gt (Nat.lt_of_lt_of_le (Nat.two_pow_pos k) hpow)
  have hlog : k ≤ (quanta * 5 ^ k).log2 := (Nat.le_log2 hne).2 hpow
  have hlarge : ¬ (400 : Int) < -(k : Int) := by omega
  have hsmall : ¬ -(k : Int) < -((quanta * 5 ^ k).log2 + 400 : Nat) := by omega
  have hscale : quanta * 5 ^ k * 10 ^ (-(k : Int)).toNat * 2 ^ k = quanta * 10 ^ k := by
    rw [Int.toNat_of_nonpos (by omega), Nat.pow_zero, Nat.mul_one, Nat.mul_assoc, ← Nat.mul_pow]
  rw [if_neg hne, if_neg hlarge, if_neg hsmall, hscale, Int.neg_neg, Int.toNat_natCast]
  exact ofRatio_of_representable representable (Nat.pow_pos (by decide)) false

/-- The shortest decimal is the number it was made for. Where none of the tried ones is, the exact
one is taken. -/
theorem toNumber_shortestDecimal {quanta : Nat} (representable : Representable quanta)
    (h : quanta ≠ 0) (negative : Bool) :
    (shortestDecimal quanta representable).toNumber negative =
      .finite negative quanta representable := by
  have hpositive : (shortestDecimal quanta representable).toNumber false =
      .finite false quanta representable := by
    unfold shortestDecimal
    dsimp only
    cases hfound : (List.range 24).findSome? fun (n : Nat) ↦
        (neighbours quanta (decimalScale quanta - n)).find? fun d ↦
          d.toNumber false = .finite false quanta representable with
    | none => exact toNumber_exactDecimal representable h
    | some d =>
      obtain ⟨n, -, hd⟩ := List.exists_of_findSome?_eq_some hfound
      simpa using List.find?_some hd
  cases negative with
  | false => exact hpositive
  | true => rw [← Decimal.neg_toNumber, hpositive, neg, Bool.not_false]

end Number

theorem Literal.naturalValue_eq (digits : List Char) :
    naturalValue digits = Nat.ofDigitChars 10 digits 0 :=
  Nat.ofDigitChars_eq_foldl.symm

namespace Decimal

theorem isDigit_replicate_zero {count : Nat} {c : Char} (h : c ∈ List.replicate count '0') :
    c.isDigit = true := by
  rw [(List.mem_replicate.1 h).2]
  rfl

theorem isDigit_toDigits {n : Nat} {c : Char} (h : c ∈ Nat.toDigits 10 n) : c.isDigit = true :=
  Nat.isDigit_of_mem_toDigits (by decide) (by decide) h

/-- A decimal with a fraction. Zeros are put in front until a digit stands before the point. -/
theorem layout_fraction (digits : Nat) {places : Nat} (h : places ≠ 0) :
    ∃ whole fraction : List Char, layout ⟨digits, -places⟩ = whole ++ '.' :: fraction ∧
      whole ≠ [] ∧ fraction.length = places ∧ (∀ c ∈ whole ++ fraction, c.isDigit = true) ∧
      Literal.naturalValue (whole ++ fraction) = digits := by
  simp only [layout, Int.neg_neg, Int.toNat_natCast, if_neg h]
  generalize hpadded : List.replicate (places + 1 - (Nat.toDigits 10 digits).length) '0' ++
    Nat.toDigits 10 digits = padded
  have hlength : places + 1 ≤ padded.length := by
    rw [← hpadded, List.length_append, List.length_replicate]
    omega
  refine ⟨_, _, rfl, ?_, ?_, ?_, ?_⟩
  · rw [← List.length_pos_iff, List.length_take]
    omega
  · rw [List.length_drop]
    omega
  · intro c hc
    rw [List.take_append_drop, ← hpadded, List.mem_append] at hc
    rcases hc with hzero | hdigit
    · exact isDigit_replicate_zero hzero
    · exact isDigit_toDigits hdigit
  · rw [List.take_append_drop, ← hpadded, Literal.naturalValue_eq, Nat.ofDigitChars_append,
      Nat.ofDigitChars_replicate_zero, Nat.mul_zero, Nat.ofDigitChars_ten_toDigits]

/-- A whole number, with the zeros that the exponent stands for. -/
theorem layout_whole {d : Decimal} (h : 0 ≤ d.exponent) :
    d.layout ≠ [] ∧ (∀ c ∈ d.layout, c.isDigit = true) ∧
      Literal.naturalValue d.layout = d.digits * Nat.pow 10 d.exponent.toNat := by
  have hlayout : d.layout = Nat.toDigits 10 d.digits ++ List.replicate d.exponent.toNat '0' := by
    simp only [layout, Int.toNat_of_nonpos (Int.neg_nonpos_of_nonneg h), if_pos]
  rw [hlayout]
  refine ⟨by simp, fun c hc ↦ ?_, ?_⟩
  · rcases List.mem_append.1 hc with hdigit | hzero
    · exact isDigit_toDigits hdigit
    · exact isDigit_replicate_zero hzero
  · rw [Literal.naturalValue_eq, Nat.ofDigitChars_append, Nat.ofDigitChars_ten_toDigits,
      Nat.ofDigitChars_replicate_zero, Nat.mul_comm, Nat.pow_eq]

/-- A layout is digits, at least one before the point if there is a point, and they write the
digits of the decimal. -/
theorem layout_spec (d : Decimal) : ∃ whole fraction : List Char,
    d.layout = whole ++ (if fraction = [] then [] else '.' :: fraction) ∧ whole ≠ [] ∧
      (∀ c ∈ whole ++ fraction, c.isDigit = true) ∧
      d.expanded = ⟨Literal.naturalValue (whole ++ fraction), -fraction.length⟩ := by
  rcases Int.lt_or_le d.exponent 0 with hneg | hpos
  · obtain ⟨digits, exponent⟩ := d
    obtain ⟨places, rfl, hplaces⟩ : ∃ places : Nat, exponent = -(places : Int) ∧ places ≠ 0 := by
      dsimp only at hneg
      exact ⟨(-exponent).toNat, by omega, by omega⟩
    obtain ⟨whole, fraction, hlayout, hne, hlength, hdigits, hvalue⟩ :=
      layout_fraction digits hplaces
    have hfraction : fraction ≠ [] := List.ne_nil_of_length_pos (by omega)
    refine ⟨whole, fraction, by rw [hlayout, if_neg hfraction], hne, hdigits, ?_⟩
    rw [hvalue, hlength, expanded_of_nonpos (Int.le_of_lt hneg)]
  · obtain ⟨hne, hdigits, hvalue⟩ := layout_whole hpos
    refine ⟨d.layout, [], by simp, hne, by simpa using hdigits, ?_⟩
    rw [List.append_nil, hvalue, expanded_of_nonneg hpos]
    rfl

theorem mem_layout {d : Decimal} {c : Char} (h : c ∈ d.layout) : c.isDigit = true ∨ c = '.' := by
  obtain ⟨whole, fraction, hlayout, -, hdigits, -⟩ := d.layout_spec
  rw [hlayout, List.mem_append] at h
  rcases h with hwhole | hrest
  · exact .inl (hdigits c (List.mem_append_left _ hwhole))
  · split at hrest
    · cases hrest
    · rcases List.mem_cons.1 hrest with rfl | hfraction
      · exact .inr rfl
      · exact .inl (hdigits c (List.mem_append_right _ hfraction))

/-- A layout with a sign before it is read as the decimal it was made from. -/
theorem ofChars?_layout (negative : Bool) (d : Decimal) :
    Literal.ofChars? ((if negative then ['-'] else []) ++ d.layout) =
      some (.decimal negative d.expanded) := by
  obtain ⟨whole, fraction, hlayout, hne, hdigits, hexpanded⟩ := d.layout_spec
  have hwhole : ∀ c ∈ whole, c.isDigit = true := fun c hc ↦ hdigits c (List.mem_append_left _ hc)
  have hfraction : ∀ c ∈ fraction, c.isDigit = true := fun c hc ↦
    hdigits c (List.mem_append_right _ hc)
  generalize hsign : (if negative then ['-'] else []) = sign
  have hsigned : Literal.IsSign sign := by
    cases negative <;> simp [← hsign, Literal.IsSign]
  have hnegative : decide (sign = ['-']) = negative := by
    cases negative <;> simp [← hsign]
  have hsplit : Literal.splitSign (sign ++ d.layout) = (negative, d.layout) := by
    rw [Literal.splitSign_append hsigned, hnegative]
    intro c hc
    rw [hlayout, List.head?_append_of_ne_nil _ hne] at hc
    have hdigit := hwhole c (List.mem_of_mem_head? hc)
    exact ⟨Literal.ne_of_isDigit hdigit rfl, Literal.ne_of_isDigit hdigit rfl⟩
  rw [Literal.ofChars?_eq_decimal?, hexpanded]
  · by_cases hpoint : fraction = []
    · subst hpoint
      have hunsigned : (Literal.splitSign (sign ++ d.layout)).2 = whole ++ [] := by
        rw [hsplit, hlayout, if_pos rfl]
      rw [Literal.decimal?_whole hunsigned hwhole (by simp), if_neg hne, hsplit, List.append_nil]
      rfl
    · have hunsigned : (Literal.splitSign (sign ++ d.layout)).2 =
          whole ++ '.' :: (fraction ++ []) := by
        rw [hsplit, hlayout, if_neg hpoint, List.append_nil]
      rw [Literal.decimal?_point hunsigned hwhole hfraction (by simp), if_neg (by simp [hne]),
        hsplit]
      simp [Literal.exponent?]
  · simp [hlayout, hne]
  · intro c hc
    rcases List.mem_append.1 hc with hc | hc
    · rcases hsigned.plain c hc with rfl | rfl <;> decide
    · rcases mem_layout hc with hdigit | rfl
      · exact (Literal.isDecimalChar_iff c).2 (.inl hdigit)
      · decide

end Decimal

namespace Number

/-- The characters that numbers are printed with. -/
def printedChars : List Char := "-.0123456789INafinty".toList

theorem mem_printedChars_of_isDigit {c : Char} (h : c.isDigit = true) : c ∈ printedChars := by
  have hdigits : ∀ n < 58, (Char.ofNat n).isDigit = true → Char.ofNat n ∈ printedChars := by
    decide +kernel
  have hlt : c.toNat < 58 := by
    simp only [Char.isDigit, Bool.and_eq_true, decide_eq_true_eq] at h
    exact Nat.lt_succ_of_le h.2
  have hc := hdigits c.toNat hlt
  rw [Char.ofNat_toNat] at hc
  exact hc h

/-- A number other than zero is printed as the layout of its shortest decimal, with its sign. -/
theorem toText_finite (negative : Bool) {quanta : Nat} (representable : Representable quanta)
    (h : quanta ≠ 0) : (finite negative quanta representable).toText =
      String.ofList ((if negative then ['-'] else []) ++
        (shortestDecimal quanta representable).layout) := by
  simp only [toText, if_neg h]

/-- Whatever number is printed, these characters are enough. -/
theorem mem_toText {n : Number} {c : Char} (h : c ∈ n.toText.toList) : c ∈ printedChars := by
  have hwords : ∀ word ∈ ["NaN", "Infinity", "-Infinity", "0"], ∀ c ∈ word.toList,
      c ∈ printedChars := by
    have hall : ∀ word ∈ ["NaN", "Infinity", "-Infinity", "0"],
        word.toList.all (· ∈ printedChars) = true := by
      decide
    exact fun word hword ↦ Text.forall_mem_of_all (hall word hword)
  unfold toText at h
  split at h
  · exact hwords "NaN" (by simp) c h
  · exact hwords "Infinity" (by simp) c h
  · exact hwords "-Infinity" (by simp) c h
  · rename_i negative quanta representable
    split at h
    · exact hwords "0" (by simp) c h
    · rw [String.toList_ofList, List.mem_append] at h
      rcases h with hsign | hlayout
      · cases negative
        · cases hsign
        · obtain rfl : c = '-' := by simpa using hsign
          decide
      · rcases Decimal.mem_layout hlayout with hdigit | rfl
        · exact mem_printedChars_of_isDigit hdigit
        · decide

theorem isBlank_of_mem_toText {n : Number} {c : Char} (h : c ∈ n.toText.toList) :
    Text.isBlank c = false := by
  have hprinted : ∀ c ∈ printedChars, Text.isBlank c = false :=
    Text.forall_mem_of_all (by decide)
  exact hprinted c (mem_toText h)

theorem toText_ne_empty (n : Number) : n.toText ≠ "" := by
  unfold toText
  split
  · decide
  · decide
  · decide
  · rename_i negative quanta representable
    split
    · decide
    · obtain ⟨_, _, hlayout, hne, -⟩ := (shortestDecimal quanta representable).layout_spec
      simp [hlayout, hne]

/-- The number without the sign of zero. -/
def plainZero (n : Number) : Number := if n = .zero true then .zero false else n

theorem plainZero_nan : nan.plainZero = nan := if_neg (by simp [zero])

theorem plainZero_infinity (negative : Bool) : (infinity negative).plainZero = infinity negative :=
  if_neg (by simp [zero])

theorem plainZero_finite (negative : Bool) {quanta : Nat} (representable : Representable quanta) :
    (finite negative quanta representable).plainZero =
      finite (negative && quanta != 0) quanta representable := by
  by_cases hzero : quanta = 0
  · subst hzero
    cases negative <;> simp [plainZero, zero]
  · simp [plainZero, zero, hzero]

theorem isNaN_plainZero (n : Number) : n.plainZero.isNaN = n.isNaN := by
  unfold plainZero
  split
  · rename_i hzero
    rw [hzero]
    rfl
  · rfl

theorem plainZero_plainZero (n : Number) : n.plainZero.plainZero = n.plainZero := by
  cases n with
  | nan => rw [plainZero_nan, plainZero_nan]
  | infinity negative => rw [plainZero_infinity, plainZero_infinity]
  | finite negative quanta =>
    rw [plainZero_finite, plainZero_finite, Bool.and_assoc, Bool.and_self]

/-- Both zeros have the same text. -/
theorem toText_plainZero (n : Number) : n.plainZero.toText = n.toText := by
  unfold plainZero
  split
  · rename_i hzero
    simp only [hzero, zero, toText, if_pos]
  · rfl

/-- Numbers are equal when they differ in the sign of zero at most. -/
theorem eq_iff_plainZero {x y : Number} (h : x.isNaN = false) :
    x.eq y = true ↔ x.plainZero = y.plainZero := by
  cases x with
  | nan => cases h
  | infinity s =>
    cases y with
    | nan => simp [eq, plainZero_nan, plainZero_infinity]
    | infinity t => simp [eq, plainZero_infinity]
    | finite t b => simp [eq, plainZero_infinity, plainZero_finite]
  | finite s a =>
    cases y with
    | nan => simp [eq, plainZero_nan, plainZero_finite]
    | infinity t => simp [eq, plainZero_infinity, plainZero_finite]
    | finite t b =>
      simp only [eq, plainZero_finite, beq_iff_eq, finite.injEq, signed]
      cases s <;> cases t <;> grind

theorem eq_plainZero {n : Number} (h : n.isNaN = false) : n.plainZero.eq n = true := by
  rw [eq_iff_plainZero (by rw [isNaN_plainZero, h]), plainZero_plainZero]

/-- A number is read back from its text, but for the sign of zero. -/
theorem parse_toText {n : Number} (h : n.isNaN = false) :
    Number.parse n.toText = n.plainZero := by
  unfold parse
  rw [Text.trim_of_plain fun c hc ↦ isBlank_of_mem_toText hc]
  cases n with
  | nan => cases h
  | infinity negative => cases negative <;> rfl
  | finite negative quanta representable =>
    by_cases hzero : quanta = 0
    · subst hzero
      have hliteral : Literal.ofChars? "0".toList = some (.decimal false ⟨0, 0⟩) := by decide
      simp only [toText, if_pos, hliteral, plainZero_finite]
      simp [Literal.value, Decimal.toNumber, zero]
    · have hdecimal := toNumber_shortestDecimal representable hzero
      have hexponent := Decimal.exponent_le_of_toNumber (hdecimal false) hzero
      rw [toText_finite negative representable hzero, String.toList_ofList,
        Decimal.ofChars?_layout]
      calc (shortestDecimal quanta representable).expanded.toNumber negative
          = (shortestDecimal quanta representable).toNumber negative :=
            Decimal.toNumber_expanded hexponent negative
        _ = .finite negative quanta representable := hdecimal negative
        _ = (finite negative quanta representable).plainZero := by simp [plainZero_finite, hzero]

end Number

theorem Token.read_of_isWord {w : String} (h : IsWord w) (rest : List Char)
    (hrest : ∀ c ∈ rest.head?, isDelimiter c = true) :
    read (w.toList ++ rest) = (.word w, rest) := by
  obtain ⟨c, tail, hw⟩ := List.exists_cons_of_ne_nil (l := w.toList) (by simpa using h.ne_empty)
  have hplain := h.plain
  rw [hw] at hplain
  have hc := hplain c (by simp)
  simp only [isDelimiter, Bool.or_eq_false_iff, beq_eq_false_iff_ne] at hc
  obtain ⟨⟨⟨hnewline, hcomma⟩, hsemicolon⟩, hblank⟩ := hc
  have htail : ∀ c ∈ tail, (!isDelimiter c) = true := fun c hc ↦ by
    rw [hplain c (List.mem_cons_of_mem _ hc), Bool.not_false]
  obtain ⟨htake, hdrop⟩ := Text.span_append htail fun c hc ↦ by rw [hrest c hc, Bool.not_true]
  rw [hw, List.cons_append, read, if_neg hnewline, if_neg hcomma, hblank, if_neg (by simp),
    if_neg hsemicolon, htake, hdrop, ← hw, String.ofList_toList]

theorem Source.tokens_of_isWord {w : String} (h : IsWord w) :
    tokens w.toList = [.word w, .eof] := by
  have hread : Token.read w.toList = (.word w, []) := by
    simpa using Token.read_of_isWord h [] (by simp)
  have hend : tokens [] = [.eof] := by
    rw [tokens]
    rfl
  rw [tokens, hread]
  simp [hend]

/-- Words with a space behind each are read one by one. -/
theorem LineGrammar.words_spaced {all : List String} (h : ∀ w ∈ all, IsWord w) :
    words (all.flatMap fun w ↦ w.toList ++ [' ']) = all := by
  induction all with
  | nil => exact words_nil
  | cons w rest ih =>
    have hspace : ∀ c ∈ (' ' :: rest.flatMap fun w ↦ w.toList ++ [' ']).head?,
        Token.isDelimiter c = true := by
      rintro c ⟨⟩
      decide
    rw [List.flatMap_cons, List.append_assoc, List.singleton_append,
      words_of_isWord (h w (by simp)) hspace, words_separator (by decide),
      ih fun w' hw' ↦ h w' (List.mem_cons_of_mem w hw')]

theorem Number.isWord_toText (n : Number) : IsWord n.toText where
  ne_empty := n.toText_ne_empty
  plain c hc := by
    have hprinted : ∀ c ∈ printedChars, Token.isDelimiter c = false :=
      Text.forall_mem_of_all (by decide)
    exact hprinted c (mem_toText hc)

/-! ## What the machine shows -/

namespace Machine

variable {σ : Type} {m : Machine σ}

/-- What is printed of a number can be typed where a number is demanded. -/
theorem number_toText (m : Machine σ) {n : Number} (h : n.isNaN = false) :
    m.number n.toText = .ok n.plainZero := by
  have hsigil : hasSigil n.toText = false := by
    rw [Bool.eq_false_iff]
    intro hsigil
    exact absurd (Number.mem_toText (mem_of_hasSigil hsigil)) (by decide)
  have hvalue : m.valueOf n.toText = n.plainZero := by
    rw [valueOf_of_not_hasSigil hsigil, Number.parse_toText h]
  rw [number, demand_eq, hvalue, Number.isWithin_infinity, Number.isNaN_plainZero, h,
    Bool.not_false, if_pos rfl]

def shown (m : Machine σ) (word : String) : String :=
  if (m.valueOf word).isNaN then word else (m.valueOf word).toText

theorem isWord_shown {word : String} (h : IsWord word) : IsWord (m.shown word) := by
  unfold shown
  split
  · exact h
  · exact (m.valueOf word).isWord_toText

theorem toList_shownWords (m : Machine σ) (words : List String) :
    (m.shownWords words).toList = (words.map m.shown).flatMap fun w ↦ w.toList ++ [' '] := by
  unfold shownWords
  induction words with
  | nil => simp
  | cons word words ih => simp [ih, shown, String.toList_append]

/-- A `print` never fails. -/
theorem interpret_print [Surface σ] {i : Instruction} (h : i.is "print" = true) :
    interpret i m = (.executed i, m.say .log (m.shownWords i.params)) := by
  have hstatement : Statement.ofInstruction i = .ok (.print i.params) :=
    (Statement.ofInstruction_eq_ok_iff_is .print rfl (by decide) (by decide)).2 ⟨h, rfl⟩
  obtain ⟨perform?, hwith⟩ := exists_interpret i m
  rw [hwith, interpretWith_performed (Instruction.isEof_of_is h (by decide)) hstatement rfl]
  rfl

/-- The console echoes the result of a call or the value of a variable that was set. -/
theorem exists_of_feedback {i : Instruction} {text : String}
    (h : Terminal.feedback m i = some text) :
    ∃ value : Number, text = value.toText ∧
      (i.is "call" = true ∧ m.registers.get .ret = value ∨
        i.is "set" = true ∧ ∃ name ∈ i.params.head?, m.vars.get? name = some value) := by
  unfold Terminal.feedback at h
  split at h
  · rename_i hcall
    cases h
    exact ⟨_, rfl, .inl ⟨hcall, rfl⟩⟩
  · split at h
    · rename_i hset
      obtain ⟨name, hname, htext⟩ := Option.bind_eq_some_iff.1 h
      obtain ⟨value, hvalue, rfl⟩ := Option.map_eq_some_iff.1 htext
      exact ⟨value, rfl, .inr ⟨hset, name, hname, hvalue⟩⟩
    · cases h

end Machine

/-- Whether a text, typed as an operand, gives any machine this number. -/
def Number.IsTypedAs (n : Number) (text : String) : Prop :=
  ∀ (σ : Type) (m : Machine σ), ∃ v, m.number text = .ok v ∧ v.eq n = true

namespace Number

theorem isTypedAs_toText {n : Number} (h : n.isNaN = false) : n.IsTypedAs n.toText :=
  fun _ m ↦ ⟨n.plainZero, m.number_toText h, eq_plainZero h⟩

/-- Numbers have the same text just when they are equal. -/
theorem toText_eq_iff {x y : Number} (hx : x.isNaN = false) (hy : y.isNaN = false) :
    x.toText = y.toText ↔ x.eq y = true := by
  rw [eq_iff_plainZero hx]
  constructor
  · intro h
    rw [← parse_toText hx, h, parse_toText hy]
  · intro h
    rw [← toText_plainZero x, h, toText_plainZero y]

/-- Each word of a printed line can be typed in place of the word that it shows. -/
theorem forall₂_shown {σ : Type} (m : Machine σ) {words : List String}
    (h : ∀ word ∈ words, IsWord word) :
    List.Forall₂ (fun word shown ↦ (m.valueOf word).isNaN = false →
      (m.valueOf word).IsTypedAs shown) words
        (LineGrammar.words (m.shownWords words).toList) := by
  have hshown : ∀ shown ∈ words.map m.shown, IsWord shown := by
    intro shown hmem
    obtain ⟨word, hword, rfl⟩ := List.mem_map.1 hmem
    exact Machine.isWord_shown (h word hword)
  rw [Machine.toList_shownWords, LineGrammar.words_spaced hshown, List.forall₂_map_right_iff,
    List.forall₂_same]
  intro word _ hnumber
  rw [Machine.shown, hnumber, if_neg Bool.false_ne_true]
  exact isTypedAs_toText hnumber

/-- Printed numbers read back. A number that is not NaN is read from its text as it was, but for the
sign of zero, and the text is one word; so two numbers have the same text just when they are equal.
What `print` shows is one word for each of its words, and each of these that stands for a number
can be typed as an operand again. So can what the console echoes, after a call its result and after
`set` the value of the variable. -/
theorem printed_reads_back :
    (∀ n : Number, n.isNaN = false →
      parse n.toText = (if n = .zero true then .zero false else n) ∧
        (parse n.toText).eq n = true ∧
        Source.tokens n.toText.toList = [.word n.toText, .eof] ∧
        ∀ rest : List Char, (∀ c ∈ rest.head?, Token.isDelimiter c = true) →
          Token.read (n.toText.toList ++ rest) = (.word n.toText, rest)) ∧
    (∀ x y : Number, x.isNaN = false → y.isNaN = false →
      (x.toText = y.toText ↔ x.eq y = true)) ∧
    (∀ {σ : Type} [Surface σ] (m : Machine σ) (i : Instruction), i.is "print" = true →
      i.Writable → ∃ line, m.interpret i = (.executed i, m.say .log line) ∧
        List.Forall₂ (fun word shown ↦ (m.valueOf word).isNaN = false →
          (m.valueOf word).IsTypedAs shown) i.params (LineGrammar.words line.toList)) ∧
    ∀ {σ : Type} (m : Machine σ) (i : Instruction) (text : String),
      Terminal.feedback m i = some text →
        ∃ value : Number, text = value.toText ∧
          (i.is "call" = true ∧ m.registers.get .ret = value ∨
            i.is "set" = true ∧ ∃ name ∈ i.params.head?, m.vars.get? name = some value) ∧
          (value.isNaN = false → value.IsTypedAs text) := by
  refine ⟨fun n h ↦ ⟨parse_toText h, ?_, Source.tokens_of_isWord n.isWord_toText,
    Token.read_of_isWord n.isWord_toText⟩, fun x y hx hy ↦ toText_eq_iff hx hy,
    fun m i hprint hwritable ↦ ?_, fun m i text htext ↦ ?_⟩
  · rw [parse_toText h]
    exact eq_plainZero h
  · have hparams : ∀ word ∈ i.params, IsWord word := fun word hword ↦
      hwritable word (List.mem_cons_of_mem _ hword)
    exact ⟨m.shownWords i.params, Machine.interpret_print hprint, forall₂_shown m hparams⟩
  · obtain ⟨value, rfl, hheld⟩ := Machine.exists_of_feedback htext
    exact ⟨value, rfl, hheld, isTypedAs_toText⟩

end Number

theorem one_representable : Representable 1 := ⟨by decide +kernel, 1, 0, by decide, rfl⟩

def Number.leastPositive : Number := .finite false 1 one_representable

theorem Machine.valueOf_width_fresh : (fresh "").valueOf "$w" = 640 := by
  have hheld : (fresh "").held "$w" = (fresh "").registers.get .w := rfl
  rw [valueOf_of_hasSigil (by decide), hheld]
  simp [fresh, initial, Registers.initial, Registers.get_set, Surface.width, Canvas.empty]

theorem Machine.result_fresh : (fresh "").registers.get .ret = 0 := by
  simp only [fresh, initial, Registers.initial, Registers.get_set, reduceCtorEq, if_false]
  exact Vector.getElem_replicate _

/-- The least positive number has 323 zeros behind the point, both zeros have one text, the width of
the canvas is typed back from what `print` shows beside a word that is no number, and so is the
result that the console would echo before any call. -/
theorem Number.leastPositive_reads_back :
    (leastPositive.isNaN = false ∧
      leastPositive.toText = String.ofList ('0' :: '.' :: List.replicate 323 '0' ++ ['5']) ∧
      parse leastPositive.toText = leastPositive ∧
      Token.read (leastPositive.toText.toList ++ [',', '1']) =
        (.word leastPositive.toText, [',', '1'])) ∧
    ((zero true).isNaN = false ∧ (zero false).isNaN = false ∧
      (zero true).toText = (zero false).toText) ∧
    (∃ line shown other, Instruction.Writable ⟨"Print", ["$w", "wide"]⟩ ∧
      (Machine.fresh "").interpret ⟨"Print", ["$w", "wide"]⟩ =
        (.executed ⟨"Print", ["$w", "wide"]⟩, (Machine.fresh "").say .log line) ∧
      LineGrammar.words line.toList = [shown, other] ∧ (640 : Number).IsTypedAs shown) ∧
    ∃ text, Terminal.feedback (Machine.fresh "") ⟨"call", ["sin"]⟩ = some text ∧
      (0 : Number).IsTypedAs text := by
  obtain ⟨hreads, hequal, hprint, hecho⟩ := printed_reads_back
  obtain ⟨hparse, -, -, hread⟩ := hreads leastPositive rfl
  refine ⟨⟨rfl, ?_, ?_, hread _ (by simp [Token.isDelimiter])⟩, ⟨rfl, rfl, ?_⟩, ?_, ?_⟩
  · have hdecimal : shortestDecimal 1 one_representable = ⟨5, -324⟩ := by decide +kernel
    have hlayout : (⟨5, -324⟩ : Decimal).layout =
        '0' :: '.' :: List.replicate 323 '0' ++ ['5'] := by
      decide +kernel
    rw [leastPositive, toText_finite false one_representable Nat.one_ne_zero, hdecimal, hlayout]
    rfl
  · rwa [if_neg (by decide)] at hparse
  · exact (hequal (zero true) (zero false) rfl rfl).2 rfl
  · have hwritable : Instruction.Writable ⟨"Print", ["$w", "wide"]⟩ := by decide
    obtain ⟨line, hline, hshown⟩ :=
      hprint (Machine.fresh "") ⟨"Print", ["$w", "wide"]⟩ (by decide) hwritable
    obtain ⟨shown, rest, hwidth, hrest, hwords⟩ := List.forall₂_cons_left_iff.1 hshown
    obtain ⟨other, _, -, hnil, rfl⟩ := List.forall₂_cons_left_iff.1 hrest
    rw [List.forall₂_nil_left_iff.1 hnil] at hwords
    rw [Machine.valueOf_width_fresh] at hwidth
    exact ⟨line, shown, other, hwritable, hline, hwords, hwidth (by decide +kernel)⟩
  · obtain ⟨value, -, hheld, htyped⟩ := hecho (Machine.fresh "") ⟨"call", ["sin"]⟩ _ rfl
    refine ⟨_, rfl, ?_⟩
    rcases hheld with ⟨-, rfl⟩ | ⟨hset, -⟩
    · rw [Machine.result_fresh] at htyped ⊢
      exact htyped (by decide +kernel)
    · exact absurd hset (by decide)

end PenMachine
