import PenMachine.Error
import PenMachine.Number.Arithmetic
import Std.Data.HashMap

/-!
# Variables

A variable has a name that starts with `$.` and a number. There is room for a fixed count of them,
and one exists from the start. Writing to a variable that exists always succeeds; only a new one can
find no room.
-/

namespace PenMachine

/-- Whether a name starts with `$`, as those of registers and variables do. -/
def hasSigil (name : String) : Bool := name.toList.head? == some '$'

def isVariableName (name : String) : Bool := name.toList.take 2 == ['$', '.']

structure Variables where
  table : Std.HashMap String Number

namespace Variables

/-- How many variables there can be. -/
def capacity : Nat := 65535

def initial : Variables := ⟨Std.HashMap.emptyWithCapacity.insert "$.var" 0⟩

def contains (vars : Variables) (name : String) : Bool := vars.table.contains name

def get? (vars : Variables) (name : String) : Option Number := vars.table[name]?

/-- Whether a write to this name finds room. -/
def hasRoom (vars : Variables) (name : String) : Bool :=
  vars.contains name || vars.table.size < capacity

def full : Error := ⟨.outOfMemory, "TOO MANY VARIABLES"⟩

def insert (vars : Variables) (name : String) (value : Number) : Variables :=
  ⟨vars.table.insert name value⟩

/-- Writes to a name, which is an error if it is new and there is no room for it. -/
def store (vars : Variables) (name : String) (value : Number) : Option Error × Variables :=
  if vars.hasRoom name then (none, vars.insert name value) else (some full, vars)

def erase (vars : Variables) (name : String) : Variables := ⟨vars.table.erase name⟩

end Variables

end PenMachine
