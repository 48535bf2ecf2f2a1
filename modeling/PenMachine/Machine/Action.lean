import PenMachine.Machine.Basic
import PenMachine.Statement

/-!
# Actions

Carrying out a statement has two halves. `Machine.plan` looks up the operands and checks everything
that can be checked; it changes nothing and ends in a fault or an action. An action has all it needs
and changes the machine. So a statement that is refused has changed nothing, and the order of the
checks in a plan is the order in which faults win.
-/

namespace PenMachine

/-- What a statement comes to, once its operands are known. -/
inductive Action where
  | skip
  | setRegister (register : Register) (value : Number)
  | setVariable (name : String) (value : Number)
  | removeVariable (name : String)
  | log (lines : List String)
  | record (name : String) (argNames : List String)
  | invoke (f : Function) (args : List Number)
  | draw (commands : List Command)

namespace Machine

variable {σ : Type}

def planSet (m : Machine σ) (name value : String) : Except Fault Action :=
  if !hasSigil name then .error .noSigil
  else if !isVariableName name then .error .noNamespace
  else do
    let n ← m.demand value (some "The value of a variable must be a number") (.infinity true)
      (.infinity false) .error
    if m.vars.hasRoom name then .ok (.setVariable name n) else .error .tooManyVariables

def planRemove (m : Machine σ) (name : String) : Except Fault Action :=
  if m.vars.contains name then .ok (.removeVariable name) else .error (.variableNotFound name)

/-- Words that denote numbers are shown as numbers and others as they are, each with a space
after it. -/
def shownWords (m : Machine σ) (words : List String) : String :=
  String.join <| words.map fun word ↦
    let n := m.valueOf word
    (if n.isNaN then word else n.toText) ++ " "

/-- One line for each register, and a blank one. -/
def dumpLines (registers : Registers) : List String :=
  registers.toList.map (fun (r, value) ↦
    "[" ++ r.name ++ "]:\t" ++ if r = .cmp then registers.flags.toText else value.toText) ++ [" "]

/-- An argument is named like a variable or by a word that is no number and starts neither with `$`
nor with a dot. -/
def isArgumentName (name : String) : Bool :=
  isVariableName name ||
    ((Number.parse name).isNaN && !hasSigil name && name.toList.head? != some '.')

def planRecord (name : String) (argNames : List String) : Except Fault Action :=
  if Text.sameIgnoringCase name "end" then .error .reservedFunctionName
  else match argNames.find? (!isArgumentName ·) with
    | some argName => .error (.badArgumentName argName)
    | none => .ok (.record name argNames)

def planCall (m : Machine σ) (name : String) (args : List String) : Except Fault Action :=
  match m.functions[name]? with
  | none => .error (.functionNotFound name)
  | some f =>
    if f.arity.allows args.length then .invoke f <$> args.mapM m.number
    else .error (.argumentMismatch args.length f.name)

/-- The variable's own value is taken as it is, NaN included. -/
def planUpdate (m : Machine σ) (op : Operator) (name right : String) : Except Fault Action :=
  match m.vars.get? name with
  | none => .error (.updateOfNoVariable op)
  | some current => (fun n ↦ .setVariable name (op.apply current n)) <$> m.number right

def planPath (verb : String) : Except Fault Action :=
  match Text.lower verb with
  | "begin" => .ok (.draw [.begin])
  | "end" | "close" => .ok (.draw [.close])
  | _ => .error (.unknownPathCommand verb)

/-- A colour channel: a number from 0 to 255, rounded to a whole one. -/
def channel (m : Machine σ) (word : String) : Except Fault UInt8 :=
  Number.roundToByte <$> m.demand word none 0 255 .error

/-- A colour is one word, which is its name, or four, which are its channels and its opacity. -/
def colorOf (m : Machine σ) : List String → Except Fault Color
  | [name] => .ok (.named name)
  | [red, green, blue, alpha] => do
    let r ← m.channel red
    let g ← m.channel green
    let b ← m.channel blue
    let a ← m.demand alpha none 0 1 .error
    return .rgba r g b a
  | parts => .error (.colorArguments parts.length)

def planColor (m : Machine σ) (target : String) (parts : List String) : Except Fault Action :=
  if target = "line" then (fun color ↦ .draw [.strokeStyle color]) <$> m.colorOf parts
  else if target = "fill" then (fun color ↦ .draw [.fillStyle color]) <$> m.colorOf parts
  else .error (.colorTarget target)

/-- What a statement comes to. A conditional statement whose condition does not hold is skipped with
its operands unseen. A line is stroked at once, so that it shows as it is drawn. -/
def plan (m : Machine σ) : Statement → Except Fault Action
  | .set name value => m.planSet name value
  | .del name => m.planRemove name
  | .print words => .ok (.log [m.shownWords words])
  | .func name argNames => planRecord name argNames
  | .call name args => m.planCall name args
  | .ret value => .setRegister .ret <$> m.number value
  | .dump => .ok (.log (dumpLines m.registers))
  | .operate op left right => do
    let x ← m.number left
    let y ← m.number right
    return .setRegister op.register (op.apply x y)
  | .update op name right => m.planUpdate op name right
  | .compare left right =>
    .ok (.setRegister .cmp (Flags.compare (m.valueOf left) (m.valueOf right)).toNumber)
  | .callWhen condition name args =>
    if condition.holds m.registers.flags then m.planCall name args else .ok .skip
  | .setWhen condition name value =>
    if condition.holds m.registers.flags then m.planSet name value else .ok .skip
  | .path verb => planPath verb
  | .fill => .ok (.draw [.fill])
  | .stroke => .ok (.draw [.stroke])
  | .move x y => (fun (x, y) ↦ .draw [.move x y]) <$> m.coordinate x y
  | .line x y => (fun (x, y) ↦ .draw [.line x y, .stroke]) <$> m.coordinate x y
  | .width value =>
    (fun width ↦ .draw [.width width]) <$>
      m.demand value (some "Line width must be a number of at least 0") 0 (.infinity false) .error
  | .color target parts => m.planColor target parts

end Machine

end PenMachine
