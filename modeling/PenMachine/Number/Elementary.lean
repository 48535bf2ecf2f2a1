import PenMachine.Number.Arithmetic
import PenMachine.Number.FixedPoint

/-!
# Elementary functions

Square root, logarithm, sine, cosine, tangent and power, each the closest number to the real
result. The square root is exact up to one sticky bit; the others come from fixed-point series.
Limits and exceptional arguments follow the usual conventions: a sine, cosine or tangent of an
infinity is NaN, and a power with exponent zero or base one is one whatever the other operand is,
NaN included.
-/

namespace PenMachine

/-- The integer square root of a number below `4 ^ digits`, one binary digit at a time. -/
def sqrtDigits : Nat → Nat → Nat
  | 0, _ => 0
  | digits + 1, n =>
    let root := 2 * sqrtDigits digits (n / 4)
    if (root + 1) * (root + 1) ≤ n then root + 1 else root

namespace Number

/-- The root of a positive number to 56 binary digits; when it is not exact, an odd digit after them
stands for all that follow, which is enough to round to 53. -/
def sqrt : Number → Number
  | .finite s a h =>
    if a = 0 then .finite s a h
    else if s then .nan
    else
      let square := a * quantaPerUnit
      let shift := (square.log2 - 110) / 2
      let root := sqrtDigits 56 (square >>> (2 * shift))
      let sticky := if (root * root) <<< (2 * shift) = square then 0 else 1
      ofRatio false ((2 * root + sticky) <<< shift) 2
  | .infinity false => .infinity false
  | _ => .nan

/-- The number closest to a settled fixed-point integer. -/
def ofSettled (a : Int) : Number :=
  ofRatio (a < 0) a.natAbs (1 <<< (FixedPoint.settledPlaces - quantumExponent))

/-- What is left of an angle of so many quanta after taking off full turns. -/
def angle (quanta : Nat) : Int :=
  let whole : Int := (quanta <<< (FixedPoint.turnPlaces - quantumExponent) : Nat)
  let rest := whole % FixedPoint.turn
  let centred := if 2 * rest < FixedPoint.turn then rest else rest - FixedPoint.turn
  centred >>> (FixedPoint.turnPlaces - FixedPoint.places)

def sin : Number → Number
  | .finite s a h =>
    if a = 0 then .finite s a h
    else
      let value := ofSettled (FixedPoint.settle (FixedPoint.sin (angle a)))
      if s then value.neg else value
  | _ => .nan

def cos : Number → Number
  | .finite _ a _ => ofSettled (FixedPoint.settle (FixedPoint.cos (angle a)))
  | _ => .nan

def tan : Number → Number
  | .finite s a h =>
    if a = 0 then .finite s a h
    else
      let opposite := FixedPoint.sin (angle a)
      let adjacent := FixedPoint.cos (angle a)
      ofRatio (s != ((opposite < 0) != (adjacent < 0)))
        (opposite.natAbs * quantaPerUnit) adjacent.natAbs
  | _ => .nan

/-- The natural logarithm of a positive count of quanta, in fixed point: the significand between
one and two by its series, and the power of two by the logarithm of two. -/
def logQuanta (quanta : Nat) : Int :=
  let one := FixedPoint.unit FixedPoint.places
  let significand : Int := ((quanta <<< FixedPoint.places) >>> quanta.log2 : Nat)
  let ratio := (significand - one) * one / (significand + one)
  2 * FixedPoint.artanh ratio + ((quanta.log2 : Int) - quantumExponent) * FixedPoint.log2

def log10 : Number → Number
  | .finite s a _ =>
    if a = 0 then .infinity true
    else if s then .nan
    else ofSettled (FixedPoint.settle
      (logQuanta a * FixedPoint.unit FixedPoint.places / FixedPoint.log10))
  | .infinity false => .infinity false
  | _ => .nan

/-- Two to the power `whole`, times the exponential of `rest`. -/
def ofExponent (negative : Bool) (whole rest : Int) : Number :=
  if 1100 ≤ whole then .infinity negative
  else if whole ≤ -1200 then zero negative
  else
    let scaled := (FixedPoint.settle (FixedPoint.exp rest)).natAbs <<< (whole + 1200).toNat
    ofRatio negative scaled (1 <<< (FixedPoint.settledPlaces - quantumExponent + 1200))

/-- The power of a positive count of quanta that is not one to an exponent of so many quanta. -/
def powQuanta (negative : Bool) (base : Nat) (exponent : Int) : Number :=
  let logarithm := (logQuanta base * exponent) >>> quantumExponent
  ofExponent negative (logarithm / FixedPoint.log2) (logarithm % FixedPoint.log2)

def isOdd : Number → Bool
  | .finite _ a _ => a % (2 * quantaPerUnit) == quantaPerUnit
  | _ => false

def isInteger : Number → Bool
  | .finite _ a _ => a % quantaPerUnit == 0
  | _ => false

/-- The limit of a power whose base is zero or infinite: it grows when a large base meets a
positive exponent or a small one a negative exponent, and keeps the base's sign for odd
exponents. -/
def powLimit (negative grows : Bool) : Number :=
  if grows then .infinity negative else zero negative

def pow (x y : Number) : Number :=
  if y.eq 0 || x.eq 1 then 1
  else match x, y with
  | .finite _ a _, .infinity t =>
    if a = quantaPerUnit then 1 else powLimit false ((quantaPerUnit < a) != t)
  | .infinity _, .infinity t => powLimit false (!t)
  | .infinity s, .finite t _ _ => powLimit (s && y.isOdd) (!t)
  | .finite s a _, .finite t b _ =>
    if a = 0 then powLimit (s && y.isOdd) t
    else if s && !y.isInteger then .nan
    else powQuanta (s && y.isOdd) a (signed t b)
  | _, _ => .nan

end Number

end PenMachine
