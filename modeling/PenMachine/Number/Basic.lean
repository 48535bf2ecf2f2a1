/-!
# Double-precision numbers

The machine computes with IEEE 754 binary64 values. Every finite one is a whole number of *quanta*,
a quantum being the least positive value `2 ^ (-1074)`, so a finite number is a sign and a natural
number of quanta, and exact arithmetic on finite numbers is arithmetic on integers. The only
inexact step is `nearest`, which picks the representable count closest to a ratio and takes the
even significand when two are equally close. Every operation computes its result exactly and
rounds it once with `Number.ofRatio`.

All NaNs are one value: nothing the machine shows can tell two of them apart.
-/

namespace PenMachine

/-- A quantum is two to the power of minus this. -/
def quantumExponent : Nat := 1074

/-- How many quanta make one. -/
def quantaPerUnit : Nat := 1 <<< quantumExponent

/-- The exponent of the first power of two that is too large for a finite number, in quanta. -/
def limitExponent : Nat := 2098

def quantaLimit : Nat := 1 <<< limitExponent

/-- A count of quanta that some number has: at most 53 significant bits, and below the limit. -/
def Representable (quanta : Nat) : Prop :=
  quanta < quantaLimit ∧
    ∃ significand scale, significand ≤ 1 <<< 53 ∧ quanta = significand <<< scale

/-- The integer closest to `num / den`; of two equally close ones, the even one. -/
def roundDiv (num den : Nat) : Nat :=
  let quotient := num / den
  let twice := 2 * (num % den)
  if twice < den then quotient
  else if den < twice then quotient + 1
  else quotient + quotient % 2

theorem roundDiv_le_succ (num den : Nat) : roundDiv num den ≤ num / den + 1 := by
  have := Nat.mod_lt (num / den) (show 0 < 2 by omega)
  grind [roundDiv]

/-- The count of quanta with at most 53 significant bits that is closest to `num / den` quanta. -/
def nearest (num den : Nat) : Nat :=
  let scale := (num / den).log2 - 52
  roundDiv num (den <<< scale) <<< scale

/-- Rounding to 53 bits gives a number, unless it reaches the limit. -/
theorem nearest_representable {num den : Nat} (h : nearest num den < quantaLimit) :
    Representable (nearest num den) := by
  refine ⟨h, roundDiv num (den <<< ((num / den).log2 - 52)), (num / den).log2 - 52, ?_, rfl⟩
  refine Nat.le_trans (roundDiv_le_succ _ _) ?_
  rw [Nat.shiftLeft_eq, ← Nat.div_div_eq_div_mul]
  generalize num / den = quotient
  have hlt : quotient < 2 ^ (quotient.log2 - 52) * 2 ^ 53 := by
    rw [← Nat.pow_add]
    exact Nat.lt_of_lt_of_le Nat.lt_log2_self (Nat.pow_le_pow_right (by omega) (by omega))
  have := Nat.div_lt_of_lt_mul hlt
  omega

theorem quantaLimit_pos : 0 < quantaLimit := by
  rw [quantaLimit, Nat.shiftLeft_eq, Nat.one_mul]
  exact Nat.two_pow_pos limitExponent

theorem zero_representable : Representable 0 :=
  ⟨quantaLimit_pos, 0, 0, by omega, rfl⟩

/-- A binary64 value. Zero has both signs. -/
inductive Number where
  | nan
  | infinity (negative : Bool)
  | finite (negative : Bool) (quanta : Nat) (representable : Representable quanta)
  deriving DecidableEq

namespace Number

/-- The value `num / den` quanta, rounded once; too large a magnitude gives an infinity. -/
def ofRatio (negative : Bool) (num den : Nat) : Number :=
  if h : nearest num den < quantaLimit then
    .finite negative (nearest num den) (nearest_representable h)
  else
    .infinity negative

def zero (negative : Bool) : Number := .finite negative 0 zero_representable

instance : Inhabited Number := ⟨zero false⟩

def isNaN : Number → Bool
  | .nan => true
  | _ => false

def isFinite : Number → Bool
  | .finite .. => true
  | _ => false

/-- The number closest to an integer. -/
def ofInt (i : Int) : Number := ofRatio (i < 0) (i.natAbs * quantaPerUnit) 1

instance (n : Nat) : OfNat Number n := ⟨ofInt n⟩

/-- A count of quanta with its sign, as an integer. -/
def signed (negative : Bool) (quanta : Nat) : Int :=
  if negative then -(quanta : Int) else quanta

/-- IEEE equality. NaN is equal to nothing, and the two zeros are equal. -/
def eq : Number → Number → Bool
  | .infinity s, .infinity t => s == t
  | .finite s a _, .finite t b _ => signed s a == signed t b
  | _, _ => false

def lt : Number → Number → Bool
  | .infinity s, .infinity t => s && !t
  | .infinity s, .finite .. => s
  | .finite .., .infinity t => !t
  | .finite s a _, .finite t b _ => signed s a < signed t b
  | _, _ => false

def le (x y : Number) : Bool := x.lt y || x.eq y

def isWithin (x lo hi : Number) : Bool := lo.le x && x.le hi

/-- The 64-bit encoding: sign, eleven bits of exponent, 52 bits of fraction. A normal significand
adds its own leading bit to the exponent field, and a subnormal one leaves that field zero. -/
def toBits : Number → UInt64
  | .nan => 0x7ff8000000000000
  | .infinity s => signBit s ||| 0x7ff0000000000000
  | .finite s q _ =>
    let scale := q.log2 - 52
    signBit s ||| ((scale <<< 52) + (q >>> scale)).toUInt64
where
  signBit (negative : Bool) : UInt64 := if negative then 0x8000000000000000 else 0

def ofBits (bits : UInt64) : Number :=
  let negative := bits ≥ 0x8000000000000000
  let exponent := (bits.toNat >>> 52) % (1 <<< 11)
  let fraction := bits.toNat % (1 <<< 52)
  if exponent = 2047 then
    if fraction = 0 then .infinity negative else .nan
  else if exponent = 0 then ofRatio negative fraction 1
  else ofRatio negative (((1 <<< 52) + fraction) <<< (exponent - 1)) 1

end Number

end PenMachine
