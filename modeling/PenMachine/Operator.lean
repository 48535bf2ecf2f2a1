import PenMachine.Number.Elementary
import PenMachine.Register

/-!
# Binary operators

An operator computes one number from two. Under its own name it puts the result into its register;
under its name with an `s` it updates a variable in place.
-/

namespace PenMachine

inductive Operator where
  | add | sub | mul | div | mod | pow | and | or | xor
  deriving DecidableEq, Repr

namespace Operator

def all : List Operator := [.add, .sub, .mul, .div, .mod, .pow, .and, .or, .xor]

def name : Operator → String
  | .add => "add"
  | .sub => "sub"
  | .mul => "mul"
  | .div => "div"
  | .mod => "mod"
  | .pow => "pow"
  | .and => "and"
  | .or => "or"
  | .xor => "xor"

/-- The name of the operation that updates a variable. -/
def updateName (op : Operator) : String := op.name ++ "s"

/-- The register that takes the result. -/
def register : Operator → Register
  | .add => .add
  | .sub => .sub
  | .mul => .mul
  | .div => .div
  | .mod => .mod
  | .pow => .pow
  | .and => .and
  | .or => .or
  | .xor => .xor

/-- The bitwise operators work on the operands' integer parts, wrapped into 32 bits. -/
def apply : Operator → Number → Number → Number
  | .add, x, y => x + y
  | .sub, x, y => x - y
  | .mul, x, y => x * y
  | .div, x, y => x / y
  | .mod, x, y => x % y
  | .pow, x, y => x.pow y
  | .and, x, y => .ofInt32 (x.toInt32 &&& y.toInt32)
  | .or, x, y => .ofInt32 (x.toInt32 ||| y.toInt32)
  | .xor, x, y => .ofInt32 (x.toInt32 ^^^ y.toInt32)

end Operator

end PenMachine
