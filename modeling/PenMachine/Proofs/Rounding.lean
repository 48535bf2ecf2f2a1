import PenMachine.Number.Arithmetic

/-!
# Rounding

What rounding leaves alone. A count of quanta with no lower bits to lose comes out as it went in
(`nearest_of_dvd`), so natural numbers of up to 53 bits are exact (`Number.ofInt_natCast`). Rounding
can end in an infinity but never in NaN (`Number.isNaN_ofRatio`), and it gives no number a minus. So
a sum that is built up digit by digit has no minus either: it can grow to infinity but never meets
the opposite infinity (`Number.IsUnsigned.shift`).
-/

namespace PenMachine

theorem quantaPerUnit_pos : 0 < quantaPerUnit := by
  rw [quantaPerUnit, Nat.one_shiftLeft]
  exact Nat.two_pow_pos quantumExponent

theorem roundDiv_mul (n : Nat) {den : Nat} (hden : 0 < den) : roundDiv (n * den) den = n := by
  simp [roundDiv, Nat.mul_div_cancel n hden, hden]

theorem shiftLeft_mul_one_shiftLeft (n a b : Nat) : n <<< a * 1 <<< b = n * 1 <<< (a + b) := by
  rw [Nat.shiftLeft_eq n, Nat.one_shiftLeft, Nat.one_shiftLeft, Nat.pow_add, Nat.mul_assoc]

theorem shiftLeft_lt {n a b c : Nat} (h : n < 1 <<< a) (hc : a + b ≤ c) : n <<< b < 1 <<< c := by
  rw [Nat.one_shiftLeft] at h ⊢
  rw [Nat.shiftLeft_eq]
  calc n * 2 ^ b
      < 2 ^ a * 2 ^ b := Nat.mul_lt_mul_of_pos_right h (Nat.two_pow_pos b)
    _ = 2 ^ (a + b) := (Nat.pow_add 2 a b).symm
    _ ≤ 2 ^ c := Nat.pow_le_pow_right (by decide) hc

/-- Rounding leaves alone a count of quanta that has no lower bits to lose. -/
theorem nearest_of_dvd {quanta den : Nat} (hden : 0 < den)
    (h : 1 <<< (quanta.log2 - 52) ∣ quanta) : nearest (quanta * den) den = quanta := by
  rw [nearest, Nat.mul_div_cancel quanta hden]
  generalize quanta.log2 - 52 = scale at h ⊢
  obtain ⟨count, rfl⟩ := h
  have hpos : 0 < den * 2 ^ scale := Nat.mul_pos hden (Nat.two_pow_pos scale)
  simp only [Nat.shiftLeft_eq, Nat.one_mul]
  calc roundDiv (2 ^ scale * count * den) (den * 2 ^ scale) * 2 ^ scale
      = roundDiv (count * (den * 2 ^ scale)) (den * 2 ^ scale) * 2 ^ scale := by
        congr 2
        ac_rfl
    _ = count * 2 ^ scale := by rw [roundDiv_mul count hpos]
    _ = 2 ^ scale * count := Nat.mul_comm _ _

/-- A count of quanta whose low bits are zero is not rounded. -/
theorem Number.ofRatio_of_dvd {quanta den : Nat} (hden : 0 < den)
    (hdvd : 1 <<< (quanta.log2 - 52) ∣ quanta) (hlimit : quanta < quantaLimit) (negative : Bool) :
    ∃ h, ofRatio negative (quanta * den) den = .finite negative quanta h := by
  have hnearest := nearest_of_dvd hden hdvd
  have hlt : nearest (quanta * den) den < quantaLimit := by rwa [hnearest]
  have hrepresentable := nearest_representable hlt
  rw [hnearest] at hrepresentable
  refine ⟨hrepresentable, ?_⟩
  rw [ofRatio, dif_pos hlt]
  simp only [hnearest]

/-- No bits are lost of up to 53 significant ones. -/
theorem log2_scale_dvd {significand : Nat} (h : significand < 1 <<< 53) (scale : Nat) :
    1 <<< ((significand <<< scale).log2 - 52) ∣ significand <<< scale := by
  have hlt := shiftLeft_lt h (Nat.le_refl (53 + scale))
  rw [Nat.one_shiftLeft] at hlt ⊢
  by_cases hzero : significand <<< scale = 0
  · rw [hzero]
    exact Nat.dvd_zero _
  · have hlog : (significand <<< scale).log2 < 53 + scale := (Nat.log2_lt hzero).2 hlt
    have hscale : 2 ^ ((significand <<< scale).log2 - 52) ∣ 2 ^ scale :=
      Nat.pow_dvd_pow 2 (by omega)
    have hfactor : 2 ^ scale ∣ significand <<< scale := by
      rw [Nat.shiftLeft_eq]
      exact Nat.dvd_mul_left _ _
    exact Nat.dvd_trans hscale hfactor

/-- Natural numbers of up to 53 bits are exact. -/
theorem Number.ofInt_natCast {n : Nat} (h : n < 1 <<< 53) :
    ∃ h, ofInt n = .finite false (n * quantaPerUnit) h := by
  have hquanta : n * quantaPerUnit = n <<< quantumExponent := by
    rw [quantaPerUnit, Nat.shiftLeft_eq, Nat.shiftLeft_eq, Nat.one_mul]
  have hlimit : n <<< quantumExponent < quantaLimit := shiftLeft_lt h (by decide)
  have hexact := ofRatio_of_dvd Nat.one_pos (log2_scale_dvd h quantumExponent) hlimit false
  rw [Nat.mul_one, ← hquanta] at hexact
  have hsign : decide ((n : Int) < 0) = false := by simp
  rw [ofInt, hsign]
  exact hexact

namespace Number

theorem isNaN_ofRatio (negative : Bool) (num den : Nat) :
    (ofRatio negative num den).isNaN = false := by
  unfold ofRatio
  split
  · rfl
  · rfl

/-- Whether a number has no minus. NaN has no sign at all. -/
def IsUnsigned : Number → Prop
  | .nan => False
  | .infinity negative | .finite negative _ _ => negative = false

namespace IsUnsigned

variable {x : Number}

theorem isNaN_eq_false (h : x.IsUnsigned) : x.isNaN = false := by
  cases x with
  | nan => exact h.elim
  | infinity | finite => rfl

theorem ofRatio (num den : Nat) : (ofRatio false num den).IsUnsigned := by
  unfold Number.ofRatio
  split
  · rfl
  · rfl

theorem zero : (0 : Number).IsUnsigned := by
  have hzero : (0 : Number) = Number.ofRatio false (0 * quantaPerUnit) 1 := rfl
  rw [hzero]
  exact ofRatio _ _

/-- The factor must not be zero, since an infinity times zero is NaN. -/
theorem mul {y : Number} {quanta : Nat} {representable : Representable quanta}
    (h : x.IsUnsigned) (hy : y = .finite false quanta representable) (hquanta : quanta ≠ 0) :
    (x * y).IsUnsigned := by
  subst hy
  change (Number.mul x _).IsUnsigned
  cases x with
  | nan => exact h.elim
  | infinity negative =>
    rw [Number.mul, if_neg hquanta]
    simpa [IsUnsigned] using h
  | finite negative a =>
    obtain rfl : negative = false := h
    exact ofRatio _ _

theorem add {y : Number} {quanta : Nat} {representable : Representable quanta}
    (h : x.IsUnsigned) (hy : y = .finite false quanta representable) : (x + y).IsUnsigned := by
  subst hy
  change (Number.add x _).IsUnsigned
  cases x with
  | nan => exact h.elim
  | infinity negative => exact h
  | finite negative a =>
    obtain rfl : negative = false := h
    have hpositive : ¬ signed false a + signed false quanta < 0 := by
      simp only [signed, Bool.false_eq_true, if_false]
      omega
    simp only [Number.add, hpositive, decide_false]
    split
    · rfl
    · exact ofRatio _ _

/-- Taking in one more digit. -/
theorem shift (h : x.IsUnsigned) {radix digit : Nat} (hpos : 0 < radix)
    (hradix : radix < 1 <<< 53) (hdigit : digit < radix) :
    (x * ofInt radix + ofInt digit).IsUnsigned := by
  obtain ⟨_, hr⟩ := ofInt_natCast hradix
  obtain ⟨_, hd⟩ := ofInt_natCast (Nat.lt_trans hdigit hradix)
  have hne : radix * quantaPerUnit ≠ 0 := Nat.ne_of_gt (Nat.mul_pos hpos quantaPerUnit_pos)
  exact (h.mul hr hne).add hd

end IsUnsigned

end Number

end PenMachine
