import PenMachine.Error
import PenMachine.Message
import PenMachine.Number.Decimal
import PenMachine.Operator
import PenMachine.Variables

/-!
# Faults

The reasons for which a statement is not carried out. A fault is reported once, at its level and in
its words, and changes nothing else; the next instruction may run.
-/

namespace PenMachine

inductive Fault where
  /-- A name that should be a variable's does not start with `$`. -/
  | noSigil
  /-- A name that should be a variable's does not go on with a dot. -/
  | noNamespace
  | tooManyVariables
  | variableNotFound (name : String)
  | updateOfNoVariable (op : Operator)
  /-- A word denotes no number; the message, if any, takes the place of the usual one. -/
  | notNumeric (message : Option String) (level : Level)
  /-- A word denotes a number outside the range that is asked for. -/
  | outOfRange (message : Option String) (low high : Number)
  | reservedFunctionName
  | badArgumentName (name : String)
  | nestedFunction
  | functionNotFound (name : String)
  | argumentMismatch (count : Nat) (name : String)
  | callDepth (name : String)
  | unknownPathCommand (verb : String)
  | colorTarget (target : String)
  | colorArguments (count : Nat)
  /-- A complaint of the embedding program. -/
  | host (text : String) (level : Level)
  deriving DecidableEq

namespace Fault

def text : Fault → String
  | .noSigil => "Variable's name must start with '$'"
  | .noNamespace => "Variable's name must contain at least one namespace"
  | .tooManyVariables => Variables.full.text
  | .variableNotFound name => "Variable \"" ++ name ++ "\" not found"
  | .updateOfNoVariable op =>
    "The \"" ++ op.updateName ++ "\" operation must have a variable as its first argument"
  | .notNumeric message _ => message.getD "Numeric value expected"
  | .outOfRange message low high =>
    message.getD ("Numeric value within " ++ low.toText ++ " to " ++ high.toText ++ " expected")
  | .reservedFunctionName => "\"end\" is reserved and cannot name a function"
  | .badArgumentName name => "Expected an identifier as argument name, but got \"" ++ name ++ "\""
  | .nestedFunction => "Nested functions not supported"
  | .functionNotFound name => "Function " ++ name ++ " not found"
  | .argumentMismatch count name =>
    "Mismatched argument count (" ++ toString count ++ ") for function " ++ name
  | .callDepth name => "Call stack overflow in function " ++ name
  | .unknownPathCommand verb => "Unknown path command \"" ++ verb ++ "\""
  | .colorTarget target => "setting color for '" ++ target ++ "' not supported"
  | .colorArguments count =>
    "\"rgba\" only receive 1 or 4 color arguments, but got " ++ toString count ++ "!"
  | .host text _ => text

/-- Faults are errors unless whoever asked for the number or complained chose another level. -/
def level : Fault → Level
  | .notNumeric _ level => level
  | .host _ level => level
  | _ => .error

def toError (fault : Fault) : Error := ⟨.assertionFailed, fault.text⟩

end Fault

end PenMachine
