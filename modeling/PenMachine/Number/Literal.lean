import PenMachine.Number.Arithmetic
import PenMachine.Number.Decimal
import PenMachine.Text.Blank

/-!
# Number literals

A literal is blank text, which stands for zero, the word `Infinity` with an optional sign, an
unsigned hexadecimal, octal or binary integer, or a decimal with an optional sign, point and
exponent. Text that is none of these reads as NaN, which is the only way to read NaN.
-/

namespace PenMachine

/-- What a literal says, before it is rounded. -/
inductive Literal where
  | nan
  | infinity (negative : Bool)
  | integer (radix : Nat) (digits : List Nat)
  | decimal (negative : Bool) (value : Decimal)
  deriving DecidableEq

namespace Literal

/-- Splits an optional sign off; no sign is a plus. -/
def splitSign : List Char → Bool × List Char
  | '-' :: rest => (true, rest)
  | '+' :: rest => (false, rest)
  | text => (false, text)

/-- The value of a digit in any radix up to sixteen. -/
def digitValue? (c : Char) : Option Nat :=
  if '0' ≤ c ∧ c ≤ '9' then some (c.toNat - '0'.toNat)
  else if 'a' ≤ c ∧ c ≤ 'f' then some (c.toNat - 'a'.toNat + 10)
  else if 'A' ≤ c ∧ c ≤ 'F' then some (c.toNat - 'A'.toNat + 10)
  else none

/-- The natural number that decimal digits write. -/
def naturalValue (digits : List Char) : Nat :=
  digits.foldl (fun n c ↦ 10 * n + (c.toNat - '0'.toNat)) 0

/-- The exponent that follows the digits of a decimal, zero when nothing does. -/
def exponent? : List Char → Option Int
  | [] => some 0
  | mark :: rest =>
    let (negative, digits) := splitSign rest
    if (mark = 'e' ∨ mark = 'E') ∧ digits ≠ [] ∧ digits.all Char.isDigit then
      some (if negative then -(naturalValue digits : Int) else naturalValue digits)
    else none

/-- A decimal: an optional sign, digits with at most one point among them, and an exponent. -/
def decimal? (text : List Char) : Option Literal :=
  let (negative, unsigned) := splitSign text
  let whole := unsigned.takeWhile Char.isDigit
  let (fraction, rest) := match unsigned.dropWhile Char.isDigit with
    | '.' :: rest => (rest.takeWhile Char.isDigit, rest.dropWhile Char.isDigit)
    | rest => ([], rest)
  if whole = [] ∧ fraction = [] then none
  else (exponent? rest).map fun exponent ↦
    .decimal negative ⟨naturalValue (whole ++ fraction), exponent - fraction.length⟩

/-- What a text says by the general rules for floating-point numbers, which know words for infinity
and NaN in any case. -/
def float? (text : List Char) : Option Literal :=
  let (negative, unsigned) := splitSign text
  let word := unsigned.map Char.toLower
  if word = "inf".toList ∨ word = "infinity".toList then some (.infinity negative)
  else if word = "nan".toList then some .nan
  else decimal? text

def isDecimalChar (c : Char) : Bool := c.isDigit || ['.', 'e', 'E', '+', '-'].contains c

/-- A text is a floating-point number only if it has the characters of a decimal, so that no words
are left. -/
def plainFloat? (text : List Char) : Option Literal :=
  if text.all isDecimalChar then float? text else none

/-- An integer in the given radix: one or more digits, each below the radix. -/
def integer? (radix : Nat) (text : List Char) : Option Literal :=
  match text.mapM digitValue? with
  | some digits =>
    if digits ≠ [] ∧ digits.all (· < radix) then some (.integer radix digits) else none
  | none => none

/-- The radix that a character announces after a leading zero. -/
def radix? (c : Char) : Option Nat :=
  if c = 'x' ∨ c = 'X' then some 16
  else if c = 'o' ∨ c = 'O' then some 8
  else if c = 'b' ∨ c = 'B' then some 2
  else none

/-- The literal that a text without surrounding blanks writes, if it is one. -/
def ofChars? (text : List Char) : Option Literal :=
  if text = [] then some (.decimal false ⟨0, 0⟩)
  else if (splitSign text).2 = "Infinity".toList then some (.infinity (splitSign text).1)
  else match text with
    | '0' :: mark :: rest =>
      match radix? mark with
      | some radix => integer? radix rest
      | none => plainFloat? text
    | _ => plainFloat? text

/-- The number that a literal denotes. The digits of an integer are taken in one at a time, each
step rounding as any other arithmetic does. -/
def value : Literal → Number
  | .nan => .nan
  | .infinity negative => .infinity negative
  | .integer radix digits => digits.foldl (fun n digit ↦ n * .ofInt radix + .ofInt digit) 0
  | .decimal negative d => d.toNumber negative

end Literal

/-- The number that a word of a program writes, NaN when it writes none. -/
def Number.parse (text : String) : Number :=
  match Literal.ofChars? (Text.trim text.toList) with
  | some literal => literal.value
  | none => .nan

end PenMachine
