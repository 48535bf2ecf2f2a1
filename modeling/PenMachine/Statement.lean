import PenMachine.Comparison
import PenMachine.Instruction
import PenMachine.Operator

/-!
# Statements

An instruction is words; a statement is what they say. `Operation.table` lists the operations by
name, `Operation.statement?` fits the parameters to an operation, and `Statement.ofInstruction` does
both or says why it cannot be done. Past this point no parameter can be missing.
-/

namespace PenMachine

inductive Operation where
  | set
  | del
  | print
  | func
  | call
  | ret
  | dump
  | operate (op : Operator)
  | update (op : Operator)
  | compare
  | callWhen (condition : Condition)
  | setWhen (condition : Condition)
  | path
  | fill
  | stroke
  | move
  | line
  | width
  | color
  deriving DecidableEq

/-- An operation with its operands, which are still words. -/
inductive Statement where
  | set (name value : String)
  | del (name : String)
  | print (words : List String)
  | func (name : String) (argNames : List String)
  | call (name : String) (args : List String)
  | ret (value : String)
  | dump
  | operate (op : Operator) (left right : String)
  | update (op : Operator) (name right : String)
  | compare (left right : String)
  | callWhen (condition : Condition) (name : String) (args : List String)
  | setWhen (condition : Condition) (name value : String)
  | path (verb : String)
  | fill
  | stroke
  | move (x y : String)
  | line (x y : String)
  | width (value : String)
  | color (target : String) (parts : List String)
  deriving DecidableEq

namespace Operation

/-- Every operation under each of its names. -/
def table : List (String × Operation) :=
  [("set", set), ("del", del), ("print", print), ("func", func), ("call", call), ("ret", ret),
   ("dump", dump), ("dmp", dump), ("cmp", compare), ("path", path), ("fill", fill),
   ("strk", stroke), ("movp", move), ("line", line), ("lwid", width), ("rgba", color)] ++
  Operator.all.map (fun op ↦ (op.name, operate op)) ++
  Operator.all.map (fun op ↦ (op.updateName, update op)) ++
  Condition.all.map (fun c ↦ ("c" ++ c.suffix, callWhen c)) ++
  Condition.all.map (fun c ↦ ("s" ++ c.suffix, setWhen c))

def ofName? (name : String) : Option Operation := table.lookup name

/-- The names of all operations in alphabetical order. -/
def names : List String := (table.map Prod.fst).mergeSort

/-- The statement that an operation makes with these parameters, if it takes so many. -/
def statement? : Operation → List String → Option Statement
  | set, [name, value] => some (.set name value)
  | del, [name] => some (.del name)
  | print, words => some (.print words)
  | func, name :: argNames => some (.func name argNames)
  | call, name :: args => some (.call name args)
  | ret, [value] => some (.ret value)
  | dump, [] => some .dump
  | operate op, [left, right] => some (.operate op left right)
  | update op, [name, right] => some (.update op name right)
  | compare, [left, right] => some (.compare left right)
  | callWhen c, name :: args => some (.callWhen c name args)
  | setWhen c, [name, value] => some (.setWhen c name value)
  | path, [verb] => some (.path verb)
  | fill, [] => some .fill
  | stroke, [] => some .stroke
  | move, [x, y] => some (.move x y)
  | line, [x, y] => some (.line x y)
  | width, [value] => some (.width value)
  | color, target :: part :: parts =>
    if parts.length ≤ 3 then some (.color target (part :: parts)) else none
  | _, _ => none

end Operation

/-- Why an instruction is no statement. -/
inductive Rejection where
  | unknownOperation (name : String)
  | argumentCount (count : Nat) (name : String)
  deriving DecidableEq

def Rejection.text : Rejection → String
  | .unknownOperation name => "Invalid Instruction \"" ++ name ++ "\""
  | .argumentCount count name =>
    "Invalid number of arguments (" ++ toString count ++ ") passed to '" ++ name ++ "'."

/-- Operation names are matched in lower case; a rejection quotes the name as it was written. -/
def Statement.ofInstruction (i : Instruction) : Except Rejection Statement :=
  match Operation.ofName? (Text.lower i.operation) with
  | none => .error (.unknownOperation i.operation)
  | some operation =>
    match operation.statement? i.params with
    | none => .error (.argumentCount i.params.length i.operation)
    | some statement => .ok statement

end PenMachine
