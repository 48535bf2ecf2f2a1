import PenMachine.Number.Basic

/-!
# Decimals

A decimal is a natural number of units of some power of ten. `Decimal.toNumber` rounds it to the
closest number. `Number.shortestDecimal` goes back: on ever finer grids it tries the two neighbours
of the value, the closer one first and the upper one on a tie, and takes the first that reads back.
The coarsest grid is one where the value is still below one unit, so the first hit has no trailing
zeros and no shorter decimal reads back.
-/

namespace PenMachine

/-- The value `digits * 10 ^ exponent`. -/
structure Decimal where
  digits : Nat
  exponent : Int
  deriving DecidableEq

namespace Decimal

/-- The closest number. A decimal above `10 ^ 400` or below `10 ^ (-400)` needs no arithmetic: it is
beyond all finite numbers or less than half a quantum. -/
def toNumber (negative : Bool) (d : Decimal) : Number :=
  if d.digits = 0 then .zero negative
  else if 400 < d.exponent then .infinity negative
  else if d.exponent < -(d.digits.log2 + 400 : Nat) then .zero negative
  else
    .ofRatio negative (d.digits * Nat.pow 10 d.exponent.toNat * quantaPerUnit)
      (Nat.pow 10 (-d.exponent).toNat)

/-- Plain positional notation: no exponent, a point only where there is a fraction, and a zero
before a point that would otherwise come first. -/
def layout (d : Decimal) : List Char :=
  let digits := Nat.toDigits 10 d.digits
  let fraction := (-d.exponent).toNat
  if fraction = 0 then digits ++ List.replicate d.exponent.toNat '0'
  else
    let padded := List.replicate (fraction + 1 - digits.length) '0' ++ digits
    padded.take (padded.length - fraction) ++ '.' :: padded.drop (padded.length - fraction)

end Decimal

namespace Number

/-- The neighbours of `quanta` on the grid of multiples of `10 ^ exponent`, closer one first; the
upper one is first when both are equally close. -/
def neighbours (quanta : Nat) (exponent : Int) : List Decimal :=
  let num := quanta * Nat.pow 10 (-exponent).toNat
  let den := quantaPerUnit * Nat.pow 10 exponent.toNat
  let lower := num / den
  if 2 * (num % den) < den then [⟨lower, exponent⟩, ⟨lower + 1, exponent⟩]
  else [⟨lower + 1, exponent⟩, ⟨lower, exponent⟩]

/-- A power of ten above a positive count of quanta, and not much above it. -/
def decimalScale (quanta : Nat) : Int :=
  ((quanta.log2 : Int) + 1 - quantumExponent) * 30103 / 100000 + 1

/-- The value as a decimal, with nothing rounded: a quantum is a power of five over one of ten. -/
def exactDecimal (quanta : Nat) : Decimal := ⟨quanta * Nat.pow 5 quantumExponent, -quantumExponent⟩

/-- The shortest decimal that reads back as this positive count of quanta; of several, the
closest. -/
def shortestDecimal (quanta : Nat) (representable : Representable quanta) : Decimal :=
  let found := (List.range 24).findSome? fun (n : Nat) ↦
    (neighbours quanta (decimalScale quanta - n)).find? fun d ↦
      d.toNumber false = .finite false quanta representable
  found.getD (exactDecimal quanta)

/-- The text of a number as the machine prints it. Both zeros are `0`. -/
def toText : Number → String
  | .nan => "NaN"
  | .infinity false => "Infinity"
  | .infinity true => "-Infinity"
  | .finite s q h =>
    if q = 0 then "0"
    else String.ofList ((if s then ['-'] else []) ++ (shortestDecimal q h).layout)

end Number

end PenMachine
