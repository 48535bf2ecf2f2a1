import PenMachine.Text.LowerCase

/-!
# Instructions

An instruction is an operation name and its parameters, all plain words. The operation keeps the
case it was written in; names are compared without regard to it.
-/

namespace PenMachine

structure Instruction where
  operation : String
  params : List String
  deriving DecidableEq, Inhabited

namespace Instruction

/-- The instruction that stands for the end of a program. -/
def eof : Instruction := ⟨"EOF", []⟩

/-- The word `EOF` ends a program wherever it stands as an operation, with or without parameters. -/
def isEof (i : Instruction) : Bool := i.operation == "EOF"

/-- Whether this is the operation of the given name, up to ASCII case. -/
def is (i : Instruction) (name : String) : Bool := Text.sameIgnoringCase i.operation name

/-- The instruction as one line: the operation, then each parameter after a space. -/
def toText (i : Instruction) : String :=
  i.params.foldl (fun line param ↦ line ++ " " ++ param) i.operation

end Instruction

end PenMachine
