import PenMachine.Proofs.Rounding

/-!
# Exact integers

Rounding leaves alone whatever some number has already (`Number.ofRatio_of_representable`), and
every integer of magnitude up to `2 ^ 53` is one of these. So sums, products and remainders of
integers are the integers they should be, as long as the result stays within that magnitude; the
operands may be larger. `Number.IsInteger` says that a number is an integer and leaves the sign of
zero open, which a remainder may have from either side.
-/

namespace PenMachine

theorem quantaPerUnit_cast_pos : (0 : Int) < quantaPerUnit := by
  exact_mod_cast quantaPerUnit_pos

/-- A representable count has no lower bits to lose. -/
theorem Representable.scale_dvd {quanta : Nat} (h : Representable quanta) :
    1 <<< (quanta.log2 - 52) ∣ quanta := by
  obtain ⟨-, significand, scale, hle, rfl⟩ := h
  rcases Nat.lt_or_eq_of_le hle with hlt | rfl
  · exact log2_scale_dvd hlt scale
  · -- A significand of `2 ^ 53` is one of `2 ^ 52` on the next scale.
    have hshift : (1 <<< 53) <<< scale = (1 <<< 52) <<< (1 + scale) := by
      rw [Nat.shiftLeft_add (1 <<< 52) 1 scale]
      rfl
    rw [hshift]
    exact log2_scale_dvd (by decide) (1 + scale)

/-- A representable number of quanta is not rounded. -/
theorem Number.ofRatio_of_representable {quanta den : Nat} (h : Representable quanta)
    (hden : 0 < den) (negative : Bool) :
    ofRatio negative (quanta * den) den = .finite negative quanta h := by
  obtain ⟨_, hexact⟩ := ofRatio_of_dvd hden h.scale_dvd h.1 negative
  exact hexact

theorem representable_mul_quantaPerUnit {n : Nat} (h : n ≤ 1 <<< 53) :
    Representable (n * quantaPerUnit) := by
  have hquanta : n * quantaPerUnit = n <<< quantumExponent := by
    rw [quantaPerUnit, Nat.shiftLeft_eq, Nat.shiftLeft_eq, Nat.one_mul]
  have hlt : n < 1 <<< 54 := Nat.lt_of_le_of_lt h (by decide)
  rw [hquanta]
  exact ⟨shiftLeft_lt hlt (by decide), n, quantumExponent, h, rfl⟩

namespace Number

theorem natAbs_signed (negative : Bool) (quanta : Nat) :
    (signed negative quanta).natAbs = quanta := by
  cases negative <;> simp [signed]

theorem signed_natAbs (i : Int) : signed (i < 0) i.natAbs = i := by
  simp only [signed, decide_eq_true_eq]
  omega

theorem signed_mul_natCast (negative : Bool) (a b : Nat) :
    signed negative (a * b) = signed negative a * b := by
  cases negative with
  | false => exact Int.natCast_mul a b
  | true => simp only [signed, if_true, Int.natCast_mul, Int.neg_mul]

theorem signed_mul_signed (s t : Bool) (a b : Nat) :
    signed (s != t) (a * b) = signed s a * signed t b := by
  cases s with
  | false =>
    cases t with
    | false => exact Int.natCast_mul a b
    | true => exact (congrArg Neg.neg (Int.natCast_mul a b)).trans (Int.mul_neg _ _).symm
  | true =>
    cases t with
    | false => exact (congrArg Neg.neg (Int.natCast_mul a b)).trans (Int.neg_mul _ _).symm
    | true => exact (Int.natCast_mul a b).trans (Int.neg_mul_neg _ _).symm

/-- The sign of a remainder is that of what is divided. -/
theorem signed_tmod (negative : Bool) (a : Nat) (j : Int) :
    signed negative (a % j.natAbs) = (signed negative a).tmod j := by
  have hmod : (a : Int).tmod j = (a % j.natAbs : Nat) := by
    rw [← Int.natAbs_natCast a, ← Int.natAbs_tmod, Int.natAbs_natCast,
      Int.natAbs_of_nonneg (Int.tmod_nonneg j (Int.natCast_nonneg a))]
  cases negative with
  | false => simpa [signed] using hmod.symm
  | true => simp [signed, Int.neg_tmod, hmod]

/-- Whether a number is the given integer. Zero is so with either sign. -/
inductive IsInteger : Number → Int → Prop where
  | finite {negative : Bool} {quanta : Nat} {h : Representable quanta} {i : Int}
    (value : signed negative quanta = i * quantaPerUnit) :
    IsInteger (.finite negative quanta h) i

theorem ofInt_eq {i : Int} (h : i.natAbs ≤ 1 <<< 53) :
    ofInt i =
      .finite (i < 0) (i.natAbs * quantaPerUnit) (representable_mul_quantaPerUnit h) := by
  have hexact := ofRatio_of_representable (representable_mul_quantaPerUnit h) Nat.one_pos
  rw [ofInt, ← hexact, Nat.mul_one]

theorem isInteger_ofInt {i : Int} (h : i.natAbs ≤ 1 <<< 53) : (ofInt i).IsInteger i := by
  rw [ofInt_eq h]
  constructor
  rw [signed_mul_natCast, signed_natAbs]

theorem isInteger_ofNat {n : Nat} (h : n ≤ 1 <<< 53) :
    (OfNat.ofNat n : Number).IsInteger n :=
  isInteger_ofInt h

/-- A ratio of small integer value. -/
theorem isInteger_ofRatio {i : Int} (h : i.natAbs ≤ 1 <<< 53) {negative : Bool}
    (hsign : signed negative i.natAbs = i) {den : Nat} (hden : 0 < den) :
    (ofRatio negative (i.natAbs * quantaPerUnit * den) den).IsInteger i := by
  rw [ofRatio_of_representable (representable_mul_quantaPerUnit h) hden]
  constructor
  rw [signed_mul_natCast, hsign]

namespace IsInteger

variable {x y : Number} {i j : Int}

/-- An integer is a finite number, and its sign and its quanta are known but for the sign of
zero. -/
theorem exists_eq (hx : x.IsInteger i) :
    ∃ negative h, x = .finite negative (i.natAbs * quantaPerUnit) h ∧
      signed negative i.natAbs = i := by
  obtain @⟨negative, quanta, h, _, value⟩ := hx
  have hquanta : quanta = i.natAbs * quantaPerUnit := by
    rw [← natAbs_signed negative quanta, value, Int.natAbs_mul, Int.natAbs_natCast]
  subst hquanta
  rw [signed_mul_natCast] at value
  exact ⟨negative, h, rfl, Int.eq_of_mul_eq_mul_right (Int.ne_of_gt quantaPerUnit_cast_pos) value⟩

/-- Without a minus there is one number for each natural. -/
theorem eq_of_isUnsigned {n : Nat} (hx : x.IsInteger n) (h : x.IsUnsigned) :
    ∃ h, x = .finite false (n * quantaPerUnit) h := by
  obtain ⟨negative, representable, rfl, -⟩ := hx.exists_eq
  obtain rfl : negative = false := h
  exact ⟨representable, rfl⟩

theorem neg (hx : x.IsInteger i) : (-x).IsInteger (-i) := by
  obtain @⟨negative, quanta, h, _, value⟩ := hx
  constructor
  rw [Int.neg_mul, ← value]
  cases negative <;> simp [signed]

theorem abs (hx : x.IsInteger i) : x.abs.IsInteger i.natAbs := by
  obtain ⟨negative, h, rfl, -⟩ := hx.exists_eq
  constructor
  rw [signed_mul_natCast]
  rfl

/-- Sums of integers are exact as long as they do not go beyond `2 ^ 53`; so it is with differences
and products. -/
theorem add (hx : x.IsInteger i) (hy : y.IsInteger j) (h : (i + j).natAbs ≤ 1 <<< 53) :
    (x + y).IsInteger (i + j) := by
  obtain ⟨s, _, rfl, hs⟩ := hx.exists_eq
  obtain ⟨t, _, rfl, ht⟩ := hy.exists_eq
  have htotal : signed s (i.natAbs * quantaPerUnit) + signed t (j.natAbs * quantaPerUnit) =
      (i + j) * quantaPerUnit := by
    rw [signed_mul_natCast, signed_mul_natCast, hs, ht, Int.add_mul]
  change (Number.add _ _).IsInteger _
  simp only [Number.add, htotal]
  split
  · rename_i hzero
    constructor
    rw [hzero]
    cases s && t <;> rfl
  · have hsign : decide ((i + j) * quantaPerUnit < 0) = decide (i + j < 0) := by
      have hcompare := Int.mul_lt_mul_right (b := i + j) (c := 0) quantaPerUnit_cast_pos
      rw [Int.zero_mul] at hcompare
      exact decide_eq_decide.2 hcompare
    rw [hsign, Int.natAbs_mul, Int.natAbs_natCast, ← Nat.mul_one (_ * quantaPerUnit)]
    exact isInteger_ofRatio h (signed_natAbs _) Nat.one_pos

theorem sub (hx : x.IsInteger i) (hy : y.IsInteger j) (h : (i - j).natAbs ≤ 1 <<< 53) :
    (x - y).IsInteger (i - j) :=
  hx.add hy.neg h

theorem mul (hx : x.IsInteger i) (hy : y.IsInteger j) (h : (i * j).natAbs ≤ 1 <<< 53) :
    (x * y).IsInteger (i * j) := by
  obtain ⟨s, _, rfl, hs⟩ := hx.exists_eq
  obtain ⟨t, _, rfl, ht⟩ := hy.exists_eq
  have hproduct : i.natAbs * quantaPerUnit * (j.natAbs * quantaPerUnit) =
      (i * j).natAbs * quantaPerUnit * quantaPerUnit := by
    rw [Int.natAbs_mul]
    ac_rfl
  have hsign : signed (s != t) (i * j).natAbs = i * j := by
    rw [Int.natAbs_mul, signed_mul_signed, hs, ht]
  change (ofRatio (s != t) (_ * _) quantaPerUnit).IsInteger _
  rw [hproduct]
  exact isInteger_ofRatio h hsign quantaPerUnit_pos

/-- A remainder is small when the modulus is. -/
theorem rem (hx : x.IsInteger i) (hy : y.IsInteger j) (hj : j ≠ 0) (h : j.natAbs ≤ 1 <<< 53) :
    (x % y).IsInteger (i.tmod j) := by
  obtain ⟨s, _, rfl, hs⟩ := hx.exists_eq
  obtain ⟨t, _, rfl, -⟩ := hy.exists_eq
  have hpos : 0 < j.natAbs := Int.natAbs_pos.2 hj
  have hmodulus : j.natAbs * quantaPerUnit ≠ 0 :=
    Nat.ne_of_gt (Nat.mul_pos hpos quantaPerUnit_pos)
  have hrest : i.natAbs * quantaPerUnit % (j.natAbs * quantaPerUnit) =
      (i.tmod j).natAbs * quantaPerUnit * 1 := by
    rw [Nat.mul_mod_mul_right, Int.natAbs_tmod, Nat.mul_one]
  have hsign : signed s (i.tmod j).natAbs = i.tmod j := by
    rw [Int.natAbs_tmod, signed_tmod, hs]
  have hsmall : (i.tmod j).natAbs ≤ 1 <<< 53 := by
    rw [Int.natAbs_tmod]
    exact Nat.le_trans (Nat.le_of_lt (Nat.mod_lt _ hpos)) h
  change (Number.rem _ _).IsInteger _
  rw [Number.rem, if_neg hmodulus, hrest]
  exact isInteger_ofRatio hsmall hsign Nat.one_pos

/-- Numbers that are integers are in the order of the integers. -/
theorem lt_iff (hx : x.IsInteger i) (hy : y.IsInteger j) : x.lt y = true ↔ i < j := by
  obtain ⟨s, _, rfl, hs⟩ := hx.exists_eq
  obtain ⟨t, _, rfl, ht⟩ := hy.exists_eq
  rw [Number.lt, decide_eq_true_iff, signed_mul_natCast, signed_mul_natCast, hs, ht]
  exact Int.mul_lt_mul_right quantaPerUnit_cast_pos

theorem eq_iff (hx : x.IsInteger i) (hy : y.IsInteger j) : x.eq y = true ↔ i = j := by
  obtain ⟨s, _, rfl, hs⟩ := hx.exists_eq
  obtain ⟨t, _, rfl, ht⟩ := hy.exists_eq
  rw [Number.eq, beq_iff_eq, signed_mul_natCast, signed_mul_natCast, hs, ht]
  exact Int.mul_eq_mul_right_iff (Int.ne_of_gt quantaPerUnit_cast_pos)

theorem le_iff (hx : x.IsInteger i) (hy : y.IsInteger j) : x.le y = true ↔ i ≤ j := by
  rw [Number.le, Bool.or_eq_true, hx.lt_iff hy, hx.eq_iff hy]
  exact Int.le_iff_lt_or_eq.symm

theorem truncate_eq (hx : x.IsInteger i) : x.truncate = i := by
  obtain ⟨s, _, rfl, hs⟩ := hx.exists_eq
  rw [truncate, Nat.mul_div_cancel _ quantaPerUnit_pos, hs]

end IsInteger

end Number

end PenMachine
