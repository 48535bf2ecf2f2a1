import PenMachine.Machine.Action
import PenMachine.Number.Elementary
import PenMachine.Source

/-!
# Running programs

`Machine.interpret` carries out one instruction, `Machine.step` the next one of the program, and
`Machine.run` all that are left.

Nothing here needs fuel. Recorded functions may nest `Machine.maxDepth` deep, so a call recurses on
the depth that is left (`Machine.interpretWithin`). A routine of the embedding program may take
steps of the program in turn, but a step takes its instruction off the unread text first, so such
steps recurse on a text that is at least as long as the unread one (`Machine.stepWithin`).
-/

namespace PenMachine.Machine

variable {σ : Type}

/-- What reading a function's instructions off the text came to. -/
inductive Recording where
  | complete (body : List Instruction) (rest : List Char)
  /-- Another function started inside. -/
  | nested (rest : List Char)
  deriving DecidableEq

def endsFunction (i : Instruction) : Bool :=
  i.is "func" && i.params.head?.any (Text.sameIgnoringCase · "end")

/-- Reads instructions up to the end of a function or of the program. -/
def recordBody (text : List Char) (body : List Instruction) : Recording :=
  match _ : Source.next text with
  | (i, rest) =>
    if i.isEof then .complete body.reverse rest
    else if i.is "func" then
      if endsFunction i then .complete body.reverse rest else .nested rest
    else recordBody rest (i :: body)
termination_by text.length
decreasing_by
  have := Source.length_next_lt text
  simp_all

/-- Draws commands in order up to the first that the surface refuses. -/
def drawAll [Surface σ] : List Command → Machine σ → Option Error × Machine σ
  | [], m => (none, m)
  | command :: rest, m =>
    -- asked first, so that nothing else holds the surface while it is drawn on
    match Surface.refusal? m.surface command with
    | some error => (some error, { m with surface := Surface.draw m.surface command })
    | none => drawAll rest { m with surface := Surface.draw m.surface command }

/-- Runs a routine of the machine's own on arguments that fit its arity. -/
def runBuiltin (m : Machine σ) : Builtin → List Number → Number × Machine σ
  | .probe, args =>
    (0, m.say .info (".func is called with " ++ toString args.length ++ " arguments!"))
  | .print, args =>
    (.ofInt args.length, m.say .log (String.join (args.map fun n ↦ n.toText ++ " ")))
  | .rand, _ => m.drawRandom
  | .log, args => (args.headD .nan |>.log10, m)
  | .sin, args => (args.headD .nan |>.sin, m)
  | .cos, args => (args.headD .nan |>.cos, m)
  | .tan, args => (args.headD .nan |>.tan, m)
  | .sqrt, args => (args.headD .nan |>.sqrt, m)

/-- Runs a routine of the embedding program, given how to take a step. -/
def runHost (step : Machine σ → Outcome × Machine σ) : HostRoutine → Machine σ → Number × Machine σ
  | .done value, m => (value, m)
  | .step resume, m =>
    let (outcome, m) := step m
    runHost step (resume outcome) m

/-- Runs recorded instructions up to and including the first `ret`. One that is refused is passed
over; an error of the surface ends the run. -/
def runBody (perform : Instruction → Machine σ → Outcome × Machine σ) :
    List Instruction → Machine σ → Option Error × Machine σ
  | [], m => (none, m)
  | i :: rest, m =>
    match perform i m with
    | (.fatal error, m) => (some error, m)
    | (_, m) => if i.is "ret" then (none, m) else runBody perform rest m

/-- The outcome of an instruction that was carried out unless there was an error. -/
def executedUnless (i : Instruction) : Option Error × Machine σ → Outcome × Machine σ
  | (some error, m) => (.fatal error, m)
  | (none, m) => (.executed i, m)

def setRegister (m : Machine σ) (r : Register) (value : Number) : Machine σ :=
  { m with registers := m.registers.set r value }

/-- Calls a function on behalf of an instruction. `deeper` runs an instruction of a recorded body
one call deeper, and is missing when that would be too deep. -/
def invoke (step : Machine σ → Outcome × Machine σ)
    (deeper : Option (Instruction → Machine σ → Outcome × Machine σ)) (i : Instruction)
    (f : Function) (args : List Number) (m : Machine σ) : Outcome × Machine σ :=
  match f.body with
  | .builtin routine =>
    let (value, m) := m.runBuiltin routine args
    (.executed i, m.setRegister .ret value)
  | .host routine =>
    let (value, m) := runHost step (routine args) m
    (.executed i, m.setRegister .ret value)
  | .recorded body =>
    match deeper with
    | none => (.failed, m.refuse i.operation (.callDepth f.name))
    | some perform =>
      let depth := m.depth
      let (error?, m) := runBody perform body { m with depth := depth + 1 }
      executedUnless i (error?, { m with depth })

/-- Carries out an action on behalf of an instruction. -/
def perform [Surface σ] (step : Machine σ → Outcome × Machine σ)
    (deeper : Option (Instruction → Machine σ → Outcome × Machine σ)) (i : Instruction)
    (m : Machine σ) : Action → Outcome × Machine σ
  | .skip => (.executed i, m)
  | .setRegister r value => (.executed i, m.setRegister r value)
  | .setVariable name value =>
    let (error?, vars) := m.vars.store name value
    executedUnless i (error?, { m with vars })
  | .removeVariable name => (.executed i, { m with vars := m.vars.erase name })
  | .log lines => (.executed i, lines.foldl (fun m line ↦ m.say .log line) m)
  | .record name argNames =>
    match recordBody m.unread [] with
    | .complete body rest =>
      (.executed i, { m with unread := rest }.define (.recorded name argNames body))
    | .nested rest => (.failed, { m with unread := rest }.refuse i.operation .nestedFunction)
  | .invoke f args => invoke step deeper i f args m
  | .draw commands => executedUnless i (drawAll commands m)

/-- Carries out one instruction, given how a routine of the embedding program takes a step and how
instructions one call deeper are run. -/
def interpretWith [Surface σ] (step : Machine σ → Outcome × Machine σ)
    (deeper : Option (Instruction → Machine σ → Outcome × Machine σ)) (i : Instruction)
    (m : Machine σ) : Outcome × Machine σ :=
  if i.isEof then (.eof, m)
  else match Statement.ofInstruction i with
    | .error rejection => (.failed, m.say .warn rejection.text)
    | .ok statement =>
      match m.plan statement with
      | .error fault => (.failed, m.refuse i.operation fault)
      | .ok action => perform step deeper i m action

/-- Carries out one instruction with calls going at most `room` deeper. -/
def interpretWithin [Surface σ] (step : Machine σ → Outcome × Machine σ) :
    Nat → Instruction → Machine σ → Outcome × Machine σ
  | 0 => interpretWith step none
  | room + 1 => interpretWith step (some (interpretWithin step room))

/-- Carries out the next instruction of a program that is no longer than the given text. -/
def stepWithin [Surface σ] : List Char → Machine σ → Outcome × Machine σ
  | [], m => (.eof, m)
  | _ :: shorter, m =>
    let (i, rest) := Source.next m.unread
    interpretWithin (stepWithin shorter) (maxDepth - m.depth) i { m with unread := rest }

/-- Carries out the next instruction of the program. -/
def step [Surface σ] (m : Machine σ) : Outcome × Machine σ := stepWithin m.unread m

/-- Carries out an instruction from outside the program. -/
def interpret [Surface σ] (i : Instruction) (m : Machine σ) : Outcome × Machine σ :=
  interpretWithin (stepWithin m.unread) (maxDepth - m.depth) i m

/-- Counts the steps up to the end of the program or to an error of the surface. -/
def runWithin [Surface σ] : Nat → Nat → Machine σ → Except Error Nat × Machine σ
  | 0, count, m => (.ok count, m)
  | length + 1, count, m =>
    match m.step with
    | (.eof, m) => (.ok count, m)
    | (.fatal error, m) => (.error error, m)
    | (_, m) => runWithin length (count + 1) m

/-- Runs the rest of the program and counts its steps, those that failed included. -/
def run [Surface σ] (m : Machine σ) : Except Error Nat × Machine σ :=
  runWithin m.unread.length 0 m

end PenMachine.Machine
