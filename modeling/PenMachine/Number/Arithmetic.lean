import PenMachine.Number.Basic

/-!
# Arithmetic on numbers

The four basic operations, the remainder and the conversions to integers. Each is exact on the
counts of quanta and rounds once; infinities and zeros follow IEEE 754.
-/

namespace PenMachine.Number

def neg : Number → Number
  | .nan => .nan
  | .infinity s => .infinity !s
  | .finite s a h => .finite (!s) a h

def abs : Number → Number
  | .nan => .nan
  | .infinity _ => .infinity false
  | .finite _ a h => .finite false a h

/-- An exact sum of zero is negative only when both terms are. -/
def add : Number → Number → Number
  | .finite s a _, .finite t b _ =>
    let total := signed s a + signed t b
    if total = 0 then zero (s && t) else ofRatio (total < 0) total.natAbs 1
  | .infinity s, .infinity t => if s = t then .infinity s else .nan
  | .infinity s, .finite .. => .infinity s
  | .finite .., .infinity t => .infinity t
  | _, _ => .nan

def sub (x y : Number) : Number := x.add y.neg

def mul : Number → Number → Number
  | .finite s a _, .finite t b _ => ofRatio (s != t) (a * b) quantaPerUnit
  | .infinity s, .infinity t => .infinity (s != t)
  | .infinity s, .finite t b _ => if b = 0 then .nan else .infinity (s != t)
  | .finite s a _, .infinity t => if a = 0 then .nan else .infinity (s != t)
  | _, _ => .nan

def div : Number → Number → Number
  | .finite s a _, .finite t b _ =>
    if b = 0 then
      if a = 0 then .nan else .infinity (s != t)
    else ofRatio (s != t) (a * quantaPerUnit) b
  | .infinity s, .finite t _ _ => .infinity (s != t)
  | .finite s _ _, .infinity t => zero (s != t)
  | _, _ => .nan

/-- What is left of `x` after taking `y` away as often as it fits whole; the sign is that of `x`. -/
def rem : Number → Number → Number
  | .finite s a _, .finite _ b _ => if b = 0 then .nan else ofRatio s (a % b) 1
  | .finite s a h, .infinity _ => .finite s a h
  | _, _ => .nan

instance : Neg Number := ⟨neg⟩
instance : Add Number := ⟨add⟩
instance : Sub Number := ⟨sub⟩
instance : Mul Number := ⟨mul⟩
instance : Div Number := ⟨div⟩
instance : Mod Number := ⟨rem⟩

/-- The remainder, moved up by the size of the modulus when it is negative. -/
def emod (x y : Number) : Number :=
  let r := x % y
  if r.lt 0 then r + y.abs else r

/-- The number cut off towards zero; its sign stays, also on a zero. -/
def integerPart : Number → Number
  | .finite s a _ => ofRatio s (a / quantaPerUnit * quantaPerUnit) 1
  | x => x

/-- The integer part, cut off towards zero. NaN and the infinities have none and give zero. -/
def truncate : Number → Int
  | .finite s a _ => signed s (a / quantaPerUnit)
  | _ => 0

/-- The integer part, held to the range of 32 bits. NaN gives zero. -/
def clampInt32 : Number → Int32
  | .nan => 0
  | .infinity s => if s then Int32.minValue else Int32.maxValue
  | .finite s a h => Int32.ofIntClamp (truncate (.finite s a h))

/-- The integer part, wrapped into 32 bits: the remainder by `2 ^ 32`, less `2 ^ 32` in its upper
half. NaN and the infinities give zero. -/
def toInt32 (x : Number) : Int32 :=
  if x.isFinite then
    let m := x.integerPart.emod 4294967296
    if le 2147483648 m then (m - 4294967296).clampInt32 else m.clampInt32
  else 0

def ofInt32 (i : Int32) : Number := ofInt i.toInt

/-- The integer part, held to the range of a byte. NaN gives zero. -/
def toByte : Number → UInt8
  | .nan => 0
  | .infinity s => if s then 0 else 255
  | .finite s a h => (min (truncate (.finite s a h)).toNat 255).toUInt8

/-- The closest integer as a byte, halves going up, for a number from 0 to 255. -/
def roundToByte : Number → UInt8
  | .finite false a _ => ((2 * a + quantaPerUnit) / (2 * quantaPerUnit)).toUInt8
  | _ => 0

end PenMachine.Number
