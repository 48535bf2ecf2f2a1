import PenMachine.Terminal.Script

/-!
# The console

At the console a program is typed line by line. Every line is run at once, except that the lines of
a function are gathered until the one that ends it. After an instruction that calls or sets, the
value it left is echoed.
-/

namespace PenMachine.Terminal

def firstInstruction? (line : String) : Option Instruction := (Source.next? line.toList).1

def lineEndsFunction (line : String) : Bool := (firstInstruction? line).any Machine.endsFunction

def lineStartsFunction (line : String) : Bool :=
  (firstInstruction? line).any (·.is "func") && !lineEndsFunction line

/-- What has been typed of a function that has not ended yet. -/
abbrev Pending := Option String

/-- Takes in a typed line, and gives the program that it completes, if it does. -/
def Pending.type (pending : Pending) (line : String) : Option String × Pending :=
  match pending with
  | none =>
    let text := line ++ "\n"
    if lineStartsFunction line then (none, some text) else (some text, none)
  | some text =>
    let text := text ++ line ++ "\n"
    if lineEndsFunction line then (some text, none) else (none, some text)

/-- The programs that typed lines are cut into; the end of the input ends the last one. -/
def sources (pending : Pending) : List String → List String
  | [] => pending.toList
  | line :: rest =>
    let (source?, pending) := pending.type line
    source?.toList ++ sources pending rest

/-- The value to echo after an instruction. -/
def feedback {σ : Type} (m : Machine σ) (i : Instruction) : Option String :=
  if i.is "call" then some (m.registers.get .ret).toText
  else if i.is "set" then i.params.head?.bind fun name ↦ (m.vars.get? name).map Number.toText
  else none

/-- Writes a complete line below everything else. -/
def writeLine (screen : Screen) (line : String) : Screen := (screen.openLine line).endLine

/-- Runs at most `length` steps of a program, showing what each has to say. -/
def runSteps : Nat → Machine Canvas → Screen → Machine Canvas × Screen
  | 0, m, screen => (m, screen)
  | length + 1, m, screen =>
    let (outcome, m) := m.step
    let (messages, m) := m.takeMessages
    let screen := screen.printAll messages
    match outcome with
    | .eof => (m, screen)
    | .failed => runSteps length m screen
    | .executed i =>
      match feedback m i with
      | some value => runSteps length m (writeLine screen ("  " ++ styled boldCode ("= " ++ value)))
      | none => runSteps length m screen
    | .fatal error => (m, writeLine screen (styled boldCode error.message))

/-- Runs a program and closes the last line. -/
def runProgram (m : Machine Canvas) (screen : Screen) (source : String) : Machine Canvas × Screen :=
  let (m, screen) := runSteps (source.length + 1) (m.reset source) screen
  (m, screen.endLine)

/-- A console between two lines. -/
structure Console where
  machine : Machine Canvas
  verbose : Bool
  pending : Pending

namespace Console

def banner : String :=
  (((Screen.blank false).print ⟨.log, "GASM console ready."⟩ none true).endLine).text

def start (options : Options) (seed : UInt64) : Console :=
  ⟨newMachine options seed, options.verbose, none⟩

/-- What is shown when the next line is due. -/
def prompt (console : Console) : String := if console.pending.isSome then ". " else "> "

/-- Runs a program, if there is one, and tells what it printed. -/
def runIfComplete (console : Console) (source? : Option String) (pending : Pending) :
    String × Console :=
  match source? with
  | none => ("", { console with pending })
  | some source =>
    let (machine, screen) := runProgram console.machine (.blank console.verbose) source
    (screen.text, { console with machine, pending })

/-- Takes in a typed line and tells what that printed. -/
def type (console : Console) (line : String) : String × Console :=
  let (source?, pending) := console.pending.type line
  console.runIfComplete source? pending

/-- Takes in the end of the input. A pending function is run, and the console goes on; otherwise it
is at its end. -/
def endInput (console : Console) : Option (String × Console) :=
  console.pending.map fun source ↦ console.runIfComplete (some source) none

end Console

/-- The operations that a word at the start of a line may become; none when there are none, or when
the word stands elsewhere. -/
def complete (word : String) (start : Nat) : Option (List String) :=
  let typed := (Text.lower word).toList
  let candidates := Operation.names.filter fun name ↦ typed.isPrefixOf name.toList
  if start ≠ 0 ∨ candidates = [] then none else some candidates

end PenMachine.Terminal
