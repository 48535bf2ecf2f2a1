import PenMachine.Register

/-!
# Comparisons

Comparing two numbers sets four flags, which the `$cmp` register keeps as a number from 0 to 15.
A condition holds when one of the flags it asks for is set.
-/

namespace PenMachine

/-- The flags equal, not equal, greater and lesser, from the highest bit to the lowest. -/
structure Flags where
  bits : BitVec 4
  deriving DecidableEq

namespace Flags

def none : Flags := ⟨0b0000⟩
def equal : Flags := ⟨0b1000⟩
def notEqual : Flags := ⟨0b0100⟩
def greater : Flags := ⟨0b0010⟩
def lesser : Flags := ⟨0b0001⟩

instance : OrOp Flags := ⟨fun a b ↦ ⟨a.bits ||| b.bits⟩⟩

/-- Whether the two have a flag in common. -/
def meets (a b : Flags) : Bool := a.bits &&& b.bits != 0

/-- The flags in the low four bits of a byte. -/
def ofByte (byte : UInt8) : Flags := ⟨byte.toBitVec.setWidth 4⟩

/-- The outcome of comparing `x` with `y`: a NaN is not equal to anything and in no order. -/
def compare (x y : Number) : Flags :=
  (if y.lt x then greater else if x.lt y then lesser else none) |||
    (if x.eq y then equal else notEqual)

def toNumber (flags : Flags) : Number := .ofInt flags.bits.toNat

def toText (flags : Flags) : String :=
  String.ofList ([3, 2, 1, 0].map fun i ↦ if flags.bits.getLsbD i then '1' else '0')

end Flags

/-- What can be asked of the last comparison. -/
inductive Condition where
  | equal | notEqual | greater | greaterEqual | lesser | lesserEqual
  deriving DecidableEq, Repr

namespace Condition

def all : List Condition := [.equal, .notEqual, .greater, .greaterEqual, .lesser, .lesserEqual]

/-- What the names of operations under this condition end with. -/
def suffix : Condition → String
  | .equal => "e"
  | .notEqual => "ne"
  | .greater => "g"
  | .greaterEqual => "ge"
  | .lesser => "l"
  | .lesserEqual => "le"

/-- The flags of which one must be set. -/
def mask : Condition → Flags
  | .equal => .equal
  | .notEqual => .notEqual
  | .greater => .greater
  | .greaterEqual => .greater ||| .equal
  | .lesser => .lesser
  | .lesserEqual => .lesser ||| .equal

def holds (c : Condition) (flags : Flags) : Bool := flags.meets c.mask

end Condition

namespace Registers

/-- The flags of the last comparison. -/
def flags (registers : Registers) : Flags := .ofByte (registers.get .cmp).toByte

def setFlags (registers : Registers) (flags : Flags) : Registers :=
  registers.set .cmp flags.toNumber

end Registers

end PenMachine
