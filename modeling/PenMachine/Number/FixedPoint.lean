/-!
# Fixed-point series

Integers that stand for reals: at `p` places, `a` stands for `a / 2 ^ p`. The series below are
summed from their last term inwards, so each step rounds once and the error of a sum is a few units
of its last place. With 1280 places even the least positive number keeps two hundred correct bits,
which leaves no doubt about the closest number in any case but an exact one; `FixedPoint.settle`
gives the exact cases back by rounding the last 64 places away.
-/

namespace PenMachine.FixedPoint

/-- The places that results are computed with. -/
def places : Nat := 1280

/-- The places of a settled result. -/
def settledPlaces : Nat := 1216

def unit (p : Nat) : Int := (1 <<< p : Nat)

def mul (p : Nat) (a b : Int) : Int := (a * b) >>> p

/-- The sum of `w ^ k / (2 * k + 1)` over the first `terms` naturals `k`. -/
def oddSeries (p terms : Nat) (w : Int) : Int :=
  (List.range terms).foldr (fun k rest ↦ unit p / (2 * k + 1 : Nat) + mul p w rest) 0

/-- The inverse tangent of `1 / n`. -/
def arctanInverse (p terms n : Nat) : Int :=
  let z := unit p / n
  mul p z (oddSeries p terms (-mul p z z))

/-- The inverse hyperbolic tangent of `z`, for `z` up to one third. -/
def artanh (z : Int) : Int :=
  mul places z (oddSeries places 420 (mul places z z))

/-- The exponential, for `r` up to one. -/
def exp (r : Int) : Int :=
  (List.range 220).foldr
    (fun k rest ↦ unit places + mul places r rest / (k + 1 : Nat)) (unit places)

/-- The sine, for `r` of magnitude up to four. -/
def sin (r : Int) : Int :=
  let square := mul places r r
  mul places r <| (List.range 140).foldr
    (fun k rest ↦ unit places - mul places square rest / ((2 * k + 2) * (2 * k + 3) : Nat))
    (unit places)

/-- The cosine, for `r` of magnitude up to four. -/
def cos (r : Int) : Int :=
  let square := mul places r r
  (List.range 140).foldr
    (fun k rest ↦ unit places - mul places square rest / ((2 * k + 1) * (2 * k + 2) : Nat))
    (unit places)

/-- The places of the circle constant: enough to take full turns off the largest finite number. -/
def turnPlaces : Nat := 2432

/-- A full turn, `2 * π`, at `turnPlaces`. -/
def turn : Int :=
  2 * (16 * arctanInverse turnPlaces 560 5 - 4 * arctanInverse turnPlaces 170 239)

def log2 : Int := 2 * artanh (unit places / 3)

/-- The natural logarithm of ten, as that of eight and of five quarters. -/
def log10 : Int := 3 * log2 + 2 * artanh (unit places / 9)

/-- The same real with its last 64 places rounded away. -/
def settle (a : Int) : Int := (a + unit 63) >>> (64 : Nat)

end PenMachine.FixedPoint
