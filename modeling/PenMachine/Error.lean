/-!
# Errors

An error has a kind with a number and a title, and a text of its own that may be empty. Errors that
the drawing surface raises end a run; the other kinds only name what a diagnostic is about.
-/

namespace PenMachine

inductive ErrorKind where
  | assertionFailed | unknownOperation | argumentCount | outOfMemory | internalError
  deriving DecidableEq, Repr

namespace ErrorKind

def number : ErrorKind → Nat
  | .assertionFailed => 1
  | .unknownOperation => 2
  | .argumentCount => 3
  | .outOfMemory => 7
  | .internalError => 51

def title : ErrorKind → String
  | .assertionFailed => "ASSERTION FAILED"
  | .unknownOperation => "INVALID INSTRUCTION"
  | .argumentCount => "INVALID NUMBER OF ARGUMENTS"
  | .outOfMemory => "OUT OF MEMORY"
  | .internalError => "INTERNAL ERROR"

end ErrorKind

structure Error where
  kind : ErrorKind
  text : String
  deriving DecidableEq

namespace Error

/-- The title, followed by the text when there is one. -/
def message (e : Error) : String :=
  if e.text.isEmpty then e.kind.title else e.kind.title ++ "; " ++ e.text

/-- The message between braces, as a diagnostic shows it. -/
def describe (e : Error) : String := "Error \x7b " ++ e.message ++ " \x7d"

end Error

end PenMachine
