import PenMachine.Number.Arithmetic

/-!
# Registers

The sixteen registers always exist. Each binary operator has one for its result; `$ret` takes what
a call returns, `$cmp` the flags of the last comparison, `$w` and `$h` the extents of the drawing
surface, and the last three are constants.
-/

namespace PenMachine

inductive Register where
  | ret | add | sub | mul | div | mod | pow | and | or | xor | cmp | w | h | pi | deg2rad | rad2deg
  deriving DecidableEq, Repr

namespace Register

/-- Every register, in the order in which they are listed. -/
def all : List Register :=
  [.ret, .add, .sub, .mul, .div, .mod, .pow, .and, .or, .xor, .cmp, .w, .h, .pi, .deg2rad, .rad2deg]

def name : Register → String
  | .ret => "$ret"
  | .add => "$add"
  | .sub => "$sub"
  | .mul => "$mul"
  | .div => "$div"
  | .mod => "$mod"
  | .pow => "$pow"
  | .and => "$and"
  | .or => "$or"
  | .xor => "$xor"
  | .cmp => "$cmp"
  | .w => "$w"
  | .h => "$h"
  | .pi => "$pi"
  | .deg2rad => "$deg2rad"
  | .rad2deg => "$rad2deg"

def ofName? (name : String) : Option Register := all.find? (·.name == name)

/-- The place of a register in the list of all. -/
def index (r : Register) : Fin 16 := ⟨r.ctorIdx, by cases r <;> decide⟩

theorem eq_of_index_eq {r r' : Register} (h : (r.index : Nat) = r'.index) : r = r' := by
  cases r <;> cases r' <;> first | rfl | exact absurd h (by decide)

end Register

structure Registers where
  values : Vector Number 16
  deriving DecidableEq

namespace Registers

def get (registers : Registers) (r : Register) : Number := registers.values.get r.index

def set (registers : Registers) (r : Register) (value : Number) : Registers :=
  ⟨registers.values.set r.index value⟩

theorem get_set (registers : Registers) (r r' : Register) (value : Number) :
    (registers.set r value).get r' = if r = r' then value else registers.get r' := by
  have hget : ∀ registers : Registers, registers.get r' = registers.values[(r'.index : Nat)] :=
    fun _ ↦ rfl
  rw [hget, hget, set, Vector.getElem_set]
  by_cases h : r = r'
  · simp [h]
  · have hne : (r.index : Nat) ≠ r'.index := fun heq ↦ h (Register.eq_of_index_eq heq)
    simp [h, hne]

/-- The number closest to the circle constant. -/
def pi : Number := .ofBits 0x400921fb54442d18

def initial (width height : Number) : Registers :=
  (⟨Vector.replicate 16 0⟩ : Registers)
    |>.set .w width
    |>.set .h height
    |>.set .pi pi
    |>.set .deg2rad (pi / 180)
    |>.set .rad2deg (180 / pi)

def toList (registers : Registers) : List (Register × Number) :=
  Register.all.map fun r ↦ (r, registers.get r)

end Registers

end PenMachine
