import Mathlib.Data.List.DropRight
import PenMachine.Number.Literal
import PenMachine.Proofs.Rounding

/-!
# The grammar of numbers

Which texts are numbers is decided by four recognisers in a row: blank text, the word `Infinity`,
integers after a radix prefix, and floating-point numbers. A radix prefix commits to its radix, so
that a bad digit behind it is not looked at again. The last recogniser would take words for infinity
and NaN too, but it only gets to see texts without letters other than `e`, and so it comes to
decimals alone (`Literal.plainFloat?_eq_decimal?`). Here the texts are described without a
recogniser (`Literal.Grammatical`). Each recogniser is compared with its own part of the grammar,
and then the order in which they are tried is seen not to matter (`Literal.Grammatical.isSome`).

An accepted text is never read as NaN. This needs an argument for integers only, whose digits are
taken in one at a time in floating point: the sum so far has no minus, so it can grow to infinity
but never meets the opposite infinity, and no radix is zero (`Literal.isUnsigned_foldl`).
-/

namespace PenMachine

theorem Decimal.isNaN_toNumber (negative : Bool) (d : Decimal) :
    (d.toNumber negative).isNaN = false := by
  unfold toNumber
  split
  · rfl
  · split
    · rfl
    · split
      · rfl
      · exact Number.isNaN_ofRatio _ _ _

namespace Text

/-- Whether a text is what remains of another without the blanks at its ends. -/
structure Trims (text trimmed : List Char) : Prop where
  cut : ∃ left right, text = left ++ trimmed ++ right ∧ ∀ c ∈ left ++ right, isBlank c = true
  first : ∀ c ∈ trimmed.head?, isBlank c = false
  last : ∀ c ∈ trimmed.getLast?, isBlank c = false

/-- A property of all characters of a text, from a check that can be evaluated. -/
theorem forall_mem_of_all {p : Char → Prop} [DecidablePred p] {text : List Char}
    (h : text.all (fun c ↦ decide (p c)) = true) : ∀ c ∈ text, p c := by
  simpa using h

/-- What is left after dropping a class of characters does not start with one of them. -/
theorem head_dropWhile (p : Char → Bool) (text : List Char) :
    ∀ c ∈ (text.dropWhile p).head?, p c = false := by
  intro c hc
  have hfirst := List.head?_dropWhile_not p text
  rw [Option.mem_def.1 hc] at hfirst
  exact hfirst

/-- Characters of a class are told from what comes behind them. -/
theorem span_append {p : Char → Bool} {run rest : List Char} (h : ∀ c ∈ run, p c = true)
    (hrest : ∀ c ∈ rest.head?, p c = false) :
    (run ++ rest).takeWhile p = run ∧ (run ++ rest).dropWhile p = rest := by
  rw [List.takeWhile_append_of_pos h, List.dropWhile_append_of_pos h]
  cases rest with
  | nil => simp
  | cons c rest => simp [hrest c rfl]

theorem trims_trim (text : List Char) : Trims text (trim text) := by
  have htrim : trim text = (text.dropWhile isBlank).rdropWhile isBlank := rfl
  rw [htrim]
  constructor
  · refine ⟨text.takeWhile isBlank, (text.dropWhile isBlank).rtakeWhile isBlank, ?_, ?_⟩
    · rw [List.append_assoc, List.rdropWhile_append_rtakeWhile, List.takeWhile_append_dropWhile]
    · intro c hc
      rcases List.mem_append.1 hc with hc | hc
      · exact List.mem_takeWhile_imp hc
      · exact List.mem_rtakeWhile_imp hc
  · intro c hc
    obtain ⟨rest, hrest⟩ := List.rdropWhile_prefix isBlank (l := text.dropWhile isBlank)
    have hfirst : c ∈ (text.dropWhile isBlank).head? := by
      rw [← hrest]
      exact List.mem_head?_append_of_mem_head? hc
    exact head_dropWhile isBlank text c hfirst
  · intro c hc
    obtain ⟨hne, rfl⟩ := List.mem_getLast?_eq_getLast hc
    simpa using List.rdropWhile_last_not isBlank (text.dropWhile isBlank) hne

theorem trim_of_plain {text : List Char} (h : ∀ c ∈ text, isBlank c = false) :
    trim text = text := by
  have hfirst : text.dropWhile isBlank = text := by
    rw [List.dropWhile_eq_self_iff]
    intro hpos
    simp [h _ (List.getElem_mem hpos)]
  have htrim : trim text = (text.dropWhile isBlank).rdropWhile isBlank := rfl
  rw [htrim, hfirst, List.rdropWhile_eq_self_iff]
  intro hne
  simp [h _ (List.getLast_mem hne)]

end Text

/-! ## The grammar -/

namespace Literal

/-- An optional sign. -/
def IsSign (text : List Char) : Prop := text = [] ∨ text = ['+'] ∨ text = ['-']

/-- Decimal digits with at most one point among them, and at least one digit. -/
structure IsMantissa (text : List Char) : Prop where
  plain : ∀ c ∈ text, c.isDigit = true ∨ c = '.'
  point : text.count '.' ≤ 1
  digit : ∃ c ∈ text, c.isDigit = true

/-- Nothing, or an `e` in either case, an optional sign and at least one digit. -/
inductive IsExponent : List Char → Prop where
  | none : IsExponent []
  | some {mark : Char} {sign digits : List Char} (marked : mark = 'e' ∨ mark = 'E')
    (signed : IsSign sign) (nonempty : digits ≠ []) (plain : ∀ c ∈ digits, c.isDigit = true) :
    IsExponent (mark :: (sign ++ digits))

/-- The radixes of integers, each with the letters that announce it and its digits. -/
def radixes : List (Nat × String × String) :=
  [(16, "xX", "0123456789abcdefABCDEF"), (8, "oO", "01234567"), (2, "bB", "01")]

/-- The texts without surrounding blanks that are numbers. -/
inductive Grammatical : List Char → Prop where
  | blank : Grammatical []
  | infinity {sign : List Char} (signed : IsSign sign) : Grammatical (sign ++ "Infinity".toList)
  | integer {radix : Nat} {marks alphabet : String} {mark : Char} {digits : List Char}
    (known : (radix, marks, alphabet) ∈ radixes) (marked : mark ∈ marks.toList)
    (nonempty : digits ≠ []) (plain : ∀ c ∈ digits, c ∈ alphabet.toList) :
    Grammatical ('0' :: mark :: digits)
  | decimal {sign mantissa exponent : List Char} (signed : IsSign sign)
    (valued : IsMantissa mantissa) (scaled : IsExponent exponent) :
    Grammatical (sign ++ mantissa ++ exponent)

theorem splitSign_spec (text : List Char) :
    ∃ sign, IsSign sign ∧ text = sign ++ (splitSign text).2 := by
  unfold splitSign
  split
  · exact ⟨['-'], .inr (.inr rfl), rfl⟩
  · exact ⟨['+'], .inr (.inl rfl), rfl⟩
  · exact ⟨[], .inl rfl, rfl⟩

/-- A sign is split off from what does not start with one. -/
theorem splitSign_append {sign rest : List Char} (h : IsSign sign)
    (hrest : ∀ c ∈ rest.head?, c ≠ '+' ∧ c ≠ '-') :
    splitSign (sign ++ rest) = (decide (sign = ['-']), rest) := by
  rcases h with rfl | rfl | rfl
  · rw [List.nil_append]
    unfold splitSign
    split
    · exact absurd rfl (hrest '-' rfl).2
    · exact absurd rfl (hrest '+' rfl).1
    · rfl
  · rfl
  · rfl

theorem ne_of_isDigit {c x : Char} (h : c.isDigit = true) (hx : x.isDigit = false) : c ≠ x := by
  rintro rfl
  rw [h] at hx
  cases hx

theorem isDigit_of_mem_takeWhile {text : List Char} :
    ∀ c ∈ text.takeWhile Char.isDigit, c.isDigit = true := fun _ h ↦ List.mem_takeWhile_imp h

theorem isSome_exponent?_iff (text : List Char) :
    (exponent? text).isSome = true ↔ IsExponent text := by
  constructor
  · intro h
    cases text with
    | nil => exact .none
    | cons mark rest =>
      obtain ⟨sign, hsign, hrest⟩ := splitSign_spec rest
      unfold exponent? at h
      dsimp only at h
      split at h
      · rename_i hcond
        obtain ⟨hmark, hne, hall⟩ := hcond
        rw [hrest]
        exact .some hmark hsign hne (by simpa using hall)
      · cases h
  · intro h
    cases h with
    | none => rfl
    | @some mark sign digits marked signed nonempty plain =>
      have hsplit : (splitSign (sign ++ digits)).2 = digits := by
        rw [splitSign_append signed]
        intro c hc
        have hdigit := plain c (List.mem_of_mem_head? hc)
        exact ⟨ne_of_isDigit hdigit rfl, ne_of_isDigit hdigit rfl⟩
      have hall : digits.all Char.isDigit = true := List.all_eq_true.2 plain
      simp [exponent?, hsplit, marked, nonempty, hall]

namespace IsMantissa

theorem of_digits {whole : List Char} (h : ∀ c ∈ whole, c.isDigit = true) (hne : whole ≠ []) :
    IsMantissa whole where
  plain c hc := .inl (h c hc)
  point := by
    have hpoint : '.' ∉ whole := fun hmem ↦ ne_of_isDigit (h '.' hmem) rfl rfl
    simp [List.count_eq_zero_of_not_mem hpoint]
  digit := by
    obtain ⟨c, hc⟩ := List.exists_mem_of_ne_nil whole hne
    exact ⟨c, hc, h c hc⟩

/-- Digits on either side of the point will do. -/
theorem of_point {whole fraction : List Char} (hwhole : ∀ c ∈ whole, c.isDigit = true)
    (hfraction : ∀ c ∈ fraction, c.isDigit = true) (hne : ¬ (whole = [] ∧ fraction = [])) :
    IsMantissa (whole ++ '.' :: fraction) where
  plain c hc := by
    rcases List.mem_append.1 hc with hc | hc
    · exact .inl (hwhole c hc)
    · rcases List.mem_cons.1 hc with rfl | hc
      · exact .inr rfl
      · exact .inl (hfraction c hc)
  point := by
    have hnone {digits : List Char} (h : ∀ c ∈ digits, c.isDigit = true) : digits.count '.' = 0 :=
      List.count_eq_zero_of_not_mem fun hmem ↦ ne_of_isDigit (h '.' hmem) rfl rfl
    simp [List.count_append, hnone hwhole, hnone hfraction]
  digit := by
    have hne' : whole ++ fraction ≠ [] := by simpa using hne
    obtain ⟨c, hc⟩ := List.exists_mem_of_ne_nil _ hne'
    rcases List.mem_append.1 hc with hc | hc
    · exact ⟨c, by simp [hc], hwhole c hc⟩
    · exact ⟨c, by simp [hc], hfraction c hc⟩

/-- There is no point, or there are digits on both sides of it, though on one side perhaps none. -/
theorem cases {text : List Char} (h : IsMantissa text) :
    ((∀ c ∈ text, c.isDigit = true) ∧ text ≠ []) ∨
      ∃ whole fraction, text = whole ++ '.' :: fraction ∧ (∀ c ∈ whole, c.isDigit = true) ∧
        (∀ c ∈ fraction, c.isDigit = true) ∧ ¬ (whole = [] ∧ fraction = []) := by
  obtain ⟨digit, hdigit, hisDigit⟩ := h.digit
  by_cases hpoint : '.' ∈ text
  · obtain ⟨whole, fraction, rfl, hwhole⟩ := List.eq_append_cons_of_mem hpoint
    have hfraction : '.' ∉ fraction := by
      have hcount := h.point
      simp only [List.count_append, List.count_cons_self] at hcount
      exact List.count_eq_zero.1 (by omega)
    refine .inr ⟨whole, fraction, rfl, fun c hc ↦ ?_, fun c hc ↦ ?_, ?_⟩
    · exact (h.plain c (by simp [hc])).resolve_right fun heq ↦ hwhole (heq ▸ hc)
    · exact (h.plain c (by simp [hc])).resolve_right fun heq ↦ hfraction (heq ▸ hc)
    · rintro ⟨rfl, rfl⟩
      obtain rfl : digit = '.' := by simpa using hdigit
      cases hisDigit
  · refine .inl ⟨fun c hc ↦ ?_, List.ne_nil_of_mem hdigit⟩
    exact (h.plain c hc).resolve_right fun heq ↦ hpoint (heq ▸ hc)

end IsMantissa

/-- The first character behind a mantissa. -/
theorem IsExponent.head {text : List Char} (h : IsExponent text) :
    ∀ c ∈ text.head?, c = 'e' ∨ c = 'E' := by
  intro c hc
  cases h with
  | none => cases hc
  | some marked =>
    cases hc
    exact marked

/-- A decimal with a point, cut into its parts. -/
theorem decimal?_point {text whole fraction rest : List Char}
    (htext : (splitSign text).2 = whole ++ '.' :: (fraction ++ rest))
    (hwhole : ∀ c ∈ whole, c.isDigit = true) (hfraction : ∀ c ∈ fraction, c.isDigit = true)
    (hrest : ∀ c ∈ rest.head?, c.isDigit = false) :
    decimal? text = if whole = [] ∧ fraction = [] then none
      else (exponent? rest).map fun exponent ↦ .decimal (splitSign text).1
        ⟨naturalValue (whole ++ fraction), exponent - fraction.length⟩ := by
  have hpoint : ∀ c ∈ ('.' :: (fraction ++ rest)).head?, c.isDigit = false := by simp
  obtain ⟨htake, hdrop⟩ := Text.span_append hwhole hpoint
  obtain ⟨htake', hdrop'⟩ := Text.span_append hfraction hrest
  unfold decimal?
  simp only [htext, htake, hdrop, htake', hdrop']

/-- A decimal without a point, cut into its parts. -/
theorem decimal?_whole {text whole rest : List Char}
    (htext : (splitSign text).2 = whole ++ rest) (hwhole : ∀ c ∈ whole, c.isDigit = true)
    (hrest : ∀ c ∈ rest.head?, c.isDigit = false ∧ c ≠ '.') :
    decimal? text = if whole = [] then none
      else (exponent? rest).map fun exponent ↦ .decimal (splitSign text).1
        ⟨naturalValue whole, exponent⟩ := by
  obtain ⟨htake, hdrop⟩ := Text.span_append hwhole fun c hc ↦ (hrest c hc).1
  have hmatch : ∀ after, rest ≠ '.' :: after := by
    rintro after rfl
    exact (hrest '.' rfl).2 rfl
  unfold decimal?
  simp only [htext, htake, hdrop]
  split
  · simp_all
  · simp_all

/-- The decimal reader takes a sign, a mantissa and an exponent, in this order. -/
theorem isSome_decimal?_iff (text : List Char) : (decimal? text).isSome = true ↔
    ∃ sign mantissa exponent, text = sign ++ mantissa ++ exponent ∧ IsSign sign ∧
      IsMantissa mantissa ∧ IsExponent exponent := by
  constructor
  · intro h
    obtain ⟨literal, hliteral⟩ := Option.isSome_iff_exists.1 h
    obtain ⟨sign, hsign, htext⟩ := splitSign_spec text
    obtain ⟨whole, rest, hwhole, hrest, hunsigned⟩ :
        ∃ whole rest, (∀ c ∈ whole, c.isDigit = true) ∧
          (∀ c ∈ rest.head?, c.isDigit = false) ∧ (splitSign text).2 = whole ++ rest :=
      ⟨_, _, isDigit_of_mem_takeWhile, Text.head_dropWhile _ _,
        List.takeWhile_append_dropWhile.symm⟩
    by_cases hpoint : ∃ after, rest = '.' :: after
    · obtain ⟨after, rfl⟩ := hpoint
      rw [← List.takeWhile_append_dropWhile (p := Char.isDigit) (l := after)] at hunsigned
      rw [decimal?_point hunsigned hwhole isDigit_of_mem_takeWhile (Text.head_dropWhile _ _),
        Option.ite_none_left_eq_some, Option.map_eq_some_iff] at hliteral
      obtain ⟨hne, _, hexponent, -⟩ := hliteral
      refine ⟨sign, _, _, ?_, hsign, .of_point hwhole isDigit_of_mem_takeWhile hne,
        (isSome_exponent?_iff _).1 (Option.isSome_of_eq_some hexponent)⟩
      rw [htext, hunsigned]
      simp
    · have hrest' : ∀ c ∈ rest.head?, c.isDigit = false ∧ c ≠ '.' := by
        intro c hc
        refine ⟨hrest c hc, ?_⟩
        rintro rfl
        exact hpoint ⟨rest.tail, (List.cons_head?_tail hc).symm⟩
      rw [decimal?_whole hunsigned hwhole hrest', Option.ite_none_left_eq_some,
        Option.map_eq_some_iff] at hliteral
      obtain ⟨hne, _, hexponent, -⟩ := hliteral
      refine ⟨sign, _, _, ?_, hsign, .of_digits hwhole hne,
        (isSome_exponent?_iff _).1 (Option.isSome_of_eq_some hexponent)⟩
      rw [htext, hunsigned, List.append_assoc]
  · rintro ⟨sign, mantissa, exponent, rfl, hsign, hmantissa, hexponent⟩
    have hsplit : (splitSign (sign ++ mantissa ++ exponent)).2 = mantissa ++ exponent := by
      rw [List.append_assoc, splitSign_append hsign]
      intro c hc
      have hmem : c ∈ mantissa := by
        obtain ⟨digit, hdigit, -⟩ := hmantissa.digit
        rw [List.head?_append_of_ne_nil _ (List.ne_nil_of_mem hdigit)] at hc
        exact List.mem_of_mem_head? hc
      rcases hmantissa.plain c hmem with hdigit | rfl
      · exact ⟨ne_of_isDigit hdigit rfl, ne_of_isDigit hdigit rfl⟩
      · decide
    have hhead : ∀ c ∈ exponent.head?, c.isDigit = false ∧ c ≠ '.' := by
      intro c hc
      rcases hexponent.head c hc with rfl | rfl <;> decide
    have hsome := (isSome_exponent?_iff exponent).2 hexponent
    rcases hmantissa.cases with ⟨hdigits, hne⟩ | ⟨whole, fraction, rfl, hwhole, hfraction, hne⟩
    · rw [decimal?_whole hsplit hdigits hhead, if_neg hne, Option.isSome_map]
      exact hsome
    · have hsplit' : (splitSign (sign ++ (whole ++ '.' :: fraction) ++ exponent)).2 =
          whole ++ '.' :: (fraction ++ exponent) := by simpa using hsplit
      rw [decimal?_point hsplit' hwhole hfraction fun c hc ↦ (hhead c hc).1, if_neg hne,
        Option.isSome_map]
      exact hsome

theorem mapM_digitValue?_eq_some_iff {text : List Char} {digits : List Nat} :
    text.mapM digitValue? = some digits ↔ text.map digitValue? = digits.map some := by
  induction text generalizing digits with
  | nil => cases digits <;> simp
  | cons c rest ih =>
    cases digits with
    | nil => simp [Option.bind_eq_some_iff]
    | cons digit digits => simp [List.mapM_cons, Option.bind_eq_some_iff, ← ih]

/-- The integer reader takes digits that are all below the radix. -/
theorem integer?_eq_some_iff {radix : Nat} {text : List Char} {literal : Literal} :
    integer? radix text = some literal ↔ ∃ digits, literal = .integer radix digits ∧ digits ≠ [] ∧
      (∀ digit ∈ digits, digit < radix) ∧ text.map digitValue? = digits.map some := by
  simp only [← mapM_digitValue?_eq_some_iff]
  unfold integer?
  cases text.mapM digitValue? with
  | none => simp
  | some digits =>
    dsimp only
    split
    · rename_i hdigits
      constructor
      · rintro ⟨⟩
        exact ⟨digits, rfl, hdigits.1, by simpa using hdigits.2, rfl⟩
      · rintro ⟨digits', rfl, -, -, hsame⟩
        rw [Option.some.inj hsame]
    · rename_i hdigits
      constructor
      · simp
      · rintro ⟨digits', -, hne, hall, hsame⟩
        rw [Option.some.inj hsame] at hdigits
        exact absurd ⟨hne, by simpa using hall⟩ hdigits

/-- A text of digits below a radix, which may be empty. -/
theorem exists_digits {radix : Nat} {text : List Char}
    (h : ∀ c ∈ text, ∃ digit, digitValue? c = some digit ∧ digit < radix) :
    ∃ digits : List Nat, (∀ digit ∈ digits, digit < radix) ∧
      text.map digitValue? = digits.map some := by
  induction text with
  | nil => exact ⟨[], by simp, rfl⟩
  | cons c rest ih =>
    obtain ⟨digit, hvalue, hlt⟩ := h c (by simp)
    obtain ⟨digits, hdigits, hrest⟩ := ih fun c' hc' ↦ h c' (List.mem_cons_of_mem c hc')
    exact ⟨digit :: digits, by simpa [hlt] using hdigits, by simp [hvalue, hrest]⟩

theorem isSome_integer?_iff {radix : Nat} {text : List Char} :
    (integer? radix text).isSome = true ↔
      text ≠ [] ∧ ∀ c ∈ text, ∃ digit, digitValue? c = some digit ∧ digit < radix := by
  rw [Option.isSome_iff_exists]
  constructor
  · rintro ⟨literal, h⟩
    obtain ⟨digits, -, hne, hlt, hmap⟩ := integer?_eq_some_iff.1 h
    constructor
    · rintro rfl
      exact hne (List.map_eq_nil_iff.1 hmap.symm)
    · intro c hc
      have hmem : digitValue? c ∈ digits.map some := hmap ▸ List.mem_map_of_mem hc
      obtain ⟨digit, hdigit, hvalue⟩ := List.mem_map.1 hmem
      exact ⟨digit, hvalue.symm, hlt digit hdigit⟩
  · rintro ⟨hne, h⟩
    obtain ⟨digits, hlt, hmap⟩ := exists_digits h
    refine ⟨_, integer?_eq_some_iff.2 ⟨digits, rfl, ?_, hlt, hmap⟩⟩
    rintro rfl
    exact hne (List.map_eq_nil_iff.1 hmap)

theorem ascii_of_digitValue? {c : Char} {digit : Nat} (h : digitValue? c = some digit) :
    c.toNat < 128 := by
  have hle (last : Char) (hascii : last.toNat < 128) (hlast : c ≤ last) : c.toNat < 128 :=
    Nat.lt_of_le_of_lt hlast hascii
  unfold digitValue? at h
  split at h
  · exact hle '9' (by decide) (by simp_all)
  · split at h
    · exact hle 'f' (by decide) (by simp_all)
    · split at h
      · exact hle 'F' (by decide) (by simp_all)
      · cases h

/-- A radix is announced by one of its letters. -/
theorem radix?_eq_some_iff {mark : Char} {radix : Nat} : radix? mark = some radix ↔
    ∃ marks alphabet, (radix, marks, alphabet) ∈ radixes ∧ mark ∈ marks.toList := by
  simp only [radixes, List.mem_cons, List.not_mem_nil, or_false, Prod.mk.injEq]
  constructor
  · intro h
    unfold radix? at h
    split at h
    · cases h
      exact ⟨_, _, .inl ⟨rfl, rfl, rfl⟩, by simpa⟩
    · split at h
      · cases h
        exact ⟨_, _, .inr (.inl ⟨rfl, rfl, rfl⟩), by simpa⟩
      · split at h
        · cases h
          exact ⟨_, _, .inr (.inr ⟨rfl, rfl, rfl⟩), by simpa⟩
        · cases h
  · rintro ⟨marks, alphabet, ⟨rfl, rfl, rfl⟩ | ⟨rfl, rfl, rfl⟩ | ⟨rfl, rfl, rfl⟩, hmark⟩
    · obtain rfl | rfl : mark = 'x' ∨ mark = 'X' := by simpa using hmark
      all_goals rfl
    · obtain rfl | rfl : mark = 'o' ∨ mark = 'O' := by simpa using hmark
      all_goals rfl
    · obtain rfl | rfl : mark = 'b' ∨ mark = 'B' := by simpa using hmark
      all_goals rfl

/-- The digits of a radix are the characters whose value is below it. -/
theorem mem_alphabet_iff {radix : Nat} {marks alphabet : String}
    (h : (radix, marks, alphabet) ∈ radixes) (c : Char) :
    c ∈ alphabet.toList ↔ ∃ digit, digitValue? c = some digit ∧ digit < radix := by
  have hagree : ∀ entry ∈ radixes, ∀ n < 128, entry.2.2.toList.contains (Char.ofNat n) =
      (digitValue? (Char.ofNat n)).any (· < entry.1) := by
    decide +kernel
  have hascii : ∀ entry ∈ radixes, entry.2.2.toList.all (·.toNat < 128) = true := by
    decide +kernel
  constructor
  · intro hc
    have hlt : c.toNat < 128 := by simpa using List.all_eq_true.1 (hascii _ h) c hc
    have hvalue := hagree _ h c.toNat hlt
    rw [Char.ofNat_toNat] at hvalue
    simpa [hc, Option.any_eq_true] using hvalue.symm
  · rintro ⟨digit, hdigit, hlt⟩
    have hvalue := hagree _ h c.toNat (ascii_of_digitValue? hdigit)
    rw [Char.ofNat_toNat] at hvalue
    simpa [hdigit, hlt] using hvalue

theorem IsSign.plain {text : List Char} (h : IsSign text) : ∀ c ∈ text, c = '+' ∨ c = '-' := by
  rcases h with rfl | rfl | rfl <;> simp

theorem isDecimalChar_iff (c : Char) :
    isDecimalChar c = true ↔ c.isDigit = true ∨ c ∈ ['.', 'e', 'E', '+', '-'] := by
  rw [isDecimalChar, Bool.or_eq_true, List.contains_iff_mem]

/-- What a decimal is written with. -/
theorem isDecimalChar_of_mem {sign mantissa exponent : List Char} (hsign : IsSign sign)
    (hmantissa : IsMantissa mantissa) (hexponent : IsExponent exponent) {c : Char}
    (hc : c ∈ sign ++ mantissa ++ exponent) : isDecimalChar c = true := by
  rw [isDecimalChar_iff]
  have hsigned {text : List Char} (h : IsSign text) (hmem : c ∈ text) :
      c ∈ ['.', 'e', 'E', '+', '-'] := by
    rcases h.plain c hmem with rfl | rfl <;> decide
  rcases List.mem_append.1 hc with hc | hc
  · rcases List.mem_append.1 hc with hc | hc
    · exact .inr (hsigned hsign hc)
    · rcases hmantissa.plain c hc with hdigit | rfl
      · exact .inl hdigit
      · exact .inr (by decide)
  · cases hexponent with
    | none => cases hc
    | some marked signed _ plain =>
      rcases List.mem_cons.1 hc with rfl | hc
      · rcases marked with rfl | rfl <;> exact .inr (by decide)
      · rcases List.mem_append.1 hc with hc | hc
        · exact .inr (hsigned signed hc)
        · exact .inl (plain c hc)

/-- No character of a decimal is an `n` in another case. -/
theorem toLower_ne_of_isDecimalChar {c : Char} (h : isDecimalChar c = true) : c.toLower ≠ 'n' := by
  rcases (isDecimalChar_iff c).1 h with hdigit | hmark
  · have hdigits : ∀ n < 58, (Char.ofNat n).toLower ≠ 'n' := by decide +kernel
    have hlt : c.toNat < 58 := by
      simp only [Char.isDigit, Bool.and_eq_true, decide_eq_true_eq] at hdigit
      exact Nat.lt_succ_of_le hdigit.2
    have hc := hdigits c.toNat hlt
    rwa [Char.ofNat_toNat] at hc
  · simp only [List.mem_cons, List.not_mem_nil, or_false] at hmark
    rcases hmark with rfl | rfl | rfl | rfl | rfl <;> decide

/-- Each of the words for infinity and NaN has an `n`, so none is left behind the look at the
characters. A text that this look turns away is no decimal anyway. -/
theorem plainFloat?_eq_decimal? (text : List Char) : plainFloat? text = decimal? text := by
  unfold plainFloat?
  split
  · rename_i hplain
    rw [List.all_eq_true] at hplain
    obtain ⟨sign, -, htext⟩ := splitSign_spec text
    have hword : 'n' ∉ (splitSign text).2.map Char.toLower := by
      intro hmem
      obtain ⟨c, hc, hlower⟩ := List.mem_map.1 hmem
      have hctext : c ∈ text := htext ▸ List.mem_append_right sign hc
      exact toLower_ne_of_isDecimalChar (hplain c hctext) hlower
    have hne (word : String) (hn : 'n' ∈ word.toList) :
        (splitSign text).2.map Char.toLower ≠ word.toList :=
      fun heq ↦ hword (heq ▸ hn)
    unfold float?
    simp only [hne "inf" (by decide), hne "infinity" (by decide), hne "nan" (by decide), or_self,
      if_false]
  · rename_i hplain
    cases hdecimal : decimal? text with
    | none => rfl
    | some literal =>
      obtain ⟨sign, mantissa, exponent, rfl, hsign, hmantissa, hexponent⟩ :=
        (isSome_decimal?_iff text).1 (Option.isSome_of_eq_some hdecimal)
      exact absurd (List.all_eq_true.2 fun c hc ↦
        isDecimalChar_of_mem hsign hmantissa hexponent hc) hplain

/-- A text written with the characters of decimals is taken for a decimal: it holds no letter that
announces a radix, and no letter of `Infinity`. -/
theorem ofChars?_eq_decimal? {text : List Char} (hne : text ≠ [])
    (h : ∀ c ∈ text, isDecimalChar c = true) : ofChars? text = decimal? text := by
  have hword : (splitSign text).2 ≠ "Infinity".toList := by
    intro hword
    obtain ⟨sign, -, htext⟩ := splitSign_spec text
    rw [hword] at htext
    exact absurd (h 'I' (by simp [htext])) (by decide)
  have hradix : ∀ c ∈ text, radix? c = none := by
    intro c hc
    rcases (isDecimalChar_iff c).1 (h c hc) with hdigit | hmark
    · simp [radix?, ne_of_isDigit hdigit]
    · simp only [List.mem_cons, List.not_mem_nil, or_false] at hmark
      rcases hmark with rfl | rfl | rfl | rfl | rfl <;> rfl
  unfold ofChars?
  rw [if_neg hne, if_neg hword, plainFloat?_eq_decimal?]
  split
  · rw [hradix _ (by simp)]
  · rfl

/-- An accepted text is grammatical. -/
theorem grammatical_of_isSome {text : List Char} (h : (ofChars? text).isSome = true) :
    Grammatical text := by
  have hdecimal {text : List Char} (h : (decimal? text).isSome = true) : Grammatical text := by
    obtain ⟨sign, mantissa, exponent, rfl, hsign, hmantissa, hexponent⟩ :=
      (isSome_decimal?_iff text).1 h
    exact .decimal hsign hmantissa hexponent
  unfold ofChars? at h
  simp only [plainFloat?_eq_decimal?] at h
  split at h
  · rename_i hempty
    rw [hempty]
    exact .blank
  · split at h
    · rename_i hword
      obtain ⟨sign, hsign, htext⟩ := splitSign_spec text
      rw [htext, hword]
      exact .infinity hsign
    · split at h
      · split at h
        · rename_i hradix
          obtain ⟨marks, alphabet, hknown, hmark⟩ := radix?_eq_some_iff.1 hradix
          obtain ⟨hne, hdigits⟩ := isSome_integer?_iff.1 h
          exact .integer hknown hmark hne fun c hc ↦ (mem_alphabet_iff hknown c).2 (hdigits c hc)
        · exact hdecimal h
      · exact hdecimal h

/-- A grammatical text is accepted. The recognisers in front of the right one pass it on. -/
theorem Grammatical.isSome {text : List Char} (h : Grammatical text) :
    (ofChars? text).isSome = true := by
  cases h with
  | blank => rfl
  | @infinity sign signed =>
    have hsplit : (splitSign (sign ++ "Infinity".toList)).2 = "Infinity".toList := by
      rw [splitSign_append signed]
      rintro c ⟨⟩
      decide
    have hne : sign ++ "Infinity".toList ≠ [] := by simp
    unfold ofChars?
    rw [if_neg hne, if_pos hsplit]
    rfl
  | @integer radix marks alphabet mark digits known marked nonempty plain =>
    have hradix : radix? mark = some radix := radix?_eq_some_iff.2 ⟨marks, alphabet, known, marked⟩
    have hdigits : (integer? radix digits).isSome = true :=
      isSome_integer?_iff.2 ⟨nonempty, fun c hc ↦ (mem_alphabet_iff known c).1 (plain c hc)⟩
    simp [ofChars?, splitSign, hradix, hdigits]
  | @decimal sign mantissa exponent signed valued scaled =>
    have hdecimal : (decimal? (sign ++ mantissa ++ exponent)).isSome = true :=
      (isSome_decimal?_iff _).2 ⟨sign, mantissa, exponent, rfl, signed, valued, scaled⟩
    have hne : sign ++ mantissa ++ exponent ≠ [] := by
      obtain ⟨digit, hdigit, -⟩ := valued.digit
      simp [List.ne_nil_of_mem hdigit]
    rw [ofChars?_eq_decimal? hne fun c hc ↦ isDecimalChar_of_mem signed valued scaled hc]
    exact hdecimal

theorem radix_bounds {radix : Nat} {marks alphabet : String}
    (h : (radix, marks, alphabet) ∈ radixes) : 0 < radix ∧ radix < 1 <<< 53 := by
  have hall : ∀ entry ∈ radixes, 0 < entry.1 ∧ entry.1 < 1 <<< 53 := by decide
  exact hall _ h

/-- The digits of an integer make no NaN, however many there are. -/
theorem isUnsigned_foldl {radix : Nat} (hpos : 0 < radix) (hradix : radix < 1 <<< 53)
    {digits : List Nat} (hdigits : ∀ digit ∈ digits, digit < radix) {x : Number}
    (hx : x.IsUnsigned) :
    (digits.foldl (fun n digit ↦ n * .ofInt radix + .ofInt digit) x).IsUnsigned := by
  induction digits generalizing x with
  | nil => exact hx
  | cons digit digits ih =>
    refine ih (fun d hd ↦ hdigits d (List.mem_cons_of_mem digit hd)) ?_
    exact hx.shift hpos hradix (hdigits digit (by simp))

theorem isNaN_value_of_integer? {mark : Char} {radix : Nat} (hradix : radix? mark = some radix)
    {text : List Char} {literal : Literal} (h : integer? radix text = some literal) :
    literal.value.isNaN = false := by
  obtain ⟨digits, rfl, -, hdigits, -⟩ := integer?_eq_some_iff.1 h
  obtain ⟨marks, alphabet, hknown, -⟩ := radix?_eq_some_iff.1 hradix
  obtain ⟨hpos, hlt⟩ := radix_bounds hknown
  exact (isUnsigned_foldl hpos hlt hdigits .zero).isNaN_eq_false

theorem isNaN_value_of_decimal? {text : List Char} {literal : Literal}
    (h : decimal? text = some literal) : literal.value.isNaN = false := by
  simp only [decimal?, Option.ite_none_left_eq_some, Option.map_eq_some_iff] at h
  obtain ⟨-, exponent, -, rfl⟩ := h
  exact Decimal.isNaN_toNumber _ _

/-- Every literal that a text can write is a number. -/
theorem isNaN_value {text : List Char} {literal : Literal} (h : ofChars? text = some literal) :
    literal.value.isNaN = false := by
  unfold ofChars? at h
  simp only [plainFloat?_eq_decimal?] at h
  split at h
  · cases h
    exact Decimal.isNaN_toNumber _ _
  · split at h
    · cases h
      rfl
    · split at h
      · split at h
        · rename_i hradix
          exact isNaN_value_of_integer? hradix h
        · exact isNaN_value_of_decimal? h
      · exact isNaN_value_of_decimal? h

end Literal

/-- A word is read as a number just when it is a literal. -/
theorem Number.isNaN_parse (text : String) :
    (Number.parse text).isNaN = (Literal.ofChars? (Text.trim text.toList)).isNone := by
  unfold parse
  cases hliteral : Literal.ofChars? (Text.trim text.toList) with
  | none => rfl
  | some literal => exact Literal.isNaN_value hliteral

/-- The number grammar, for texts of any length. -/
theorem Number.parse_accepts_grammar (text : String) :
    Text.Trims text.toList (Text.trim text.toList) ∧
      ((Number.parse text).isNaN = false ↔ Literal.Grammatical (Text.trim text.toList)) := by
  refine ⟨Text.trims_trim text.toList, ?_⟩
  rw [isNaN_parse, Option.isNone_eq_false_iff]
  exact ⟨Literal.grammatical_of_isSome, Literal.Grammatical.isSome⟩

-- Words, signs before a radix, lone points and exponents, and text that goes on are all refused.
example : ∀ text ∈ ["inf", "nan", "infinity", "-0x1", "+0b1", "0x", "0b2", ".", "-", "e5", "1e",
    "1.2.3", "12px", "1 2"], (Number.parse text).isNaN = true := by
  decide +kernel

example : ∀ text ∈ ["", " ", "-Infinity", "0X1f", "0b1", "0e5", "1.", ".5", "\t+1.5e-3 "],
    (Number.parse text).isNaN = false := by
  decide +kernel

end PenMachine
