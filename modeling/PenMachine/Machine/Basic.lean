import PenMachine.Canvas.Command
import PenMachine.Comparison
import PenMachine.Fault
import PenMachine.Function
import PenMachine.Number.Literal
import PenMachine.Random
import PenMachine.Variables

/-!
# The machine

All that a program works on: the text still to be read, the registers, variables and functions, the
depth of the current call, the drawing surface, what has been said, and the random numbers. A word
denotes the number it writes, or else the value of the register or variable it names.
-/

namespace PenMachine

structure Machine (σ : Type) where
  unread : List Char
  registers : Registers
  vars : Variables
  functions : Std.HashMap String Function
  depth : Nat
  surface : σ
  transcript : Transcript
  random : Random.Generator

namespace Machine

variable {σ : Type}

/-- How deep recorded functions may call each other. -/
def maxDepth : Nat := 256

def initialFunctions : Std.HashMap String Function :=
  Function.builtins.foldl (fun table f ↦ table.insert f.name f) ∅

/-- A machine at the start of a program. -/
def initial [Surface σ] (source : String) (surface : σ) (seed : UInt64) : Machine σ where
  unread := source.toList
  registers := .initial (Surface.width surface) (Surface.height surface)
  vars := .initial
  functions := initialFunctions
  depth := 0
  surface := surface
  transcript := .empty
  random := ⟨seed, 0⟩

def say (m : Machine σ) (level : Level) (text : String) : Machine σ :=
  { m with transcript := m.transcript.write ⟨level, text⟩ .newLine }

def report (m : Machine σ) (fault : Fault) : Machine σ := m.say fault.level fault.text

/-- Reports a fault and the operation that ran into it, under the name it was written with. -/
def refuse (m : Machine σ) (operation : String) (fault : Fault) : Machine σ :=
  (m.report fault).say .debug ("Assertion failed in '" ++ operation ++ "': " ++ fault.text)

/-- Answers the embedding program. A fault is reported before it is handed over. -/
def answer {α : Type} (m : Machine σ) : Except Fault α → Except Fault α × Machine σ
  | .ok a => (.ok a, m)
  | .error fault => (.error fault, m.report fault)

/-- Hands over what has been said since the last time. -/
def takeMessages (m : Machine σ) : Array Message × Machine σ :=
  (m.transcript.lines, { m with transcript := .empty })

/-- Goes on with a new program. Registers, variables and functions stay. -/
def reset (m : Machine σ) (source : String) : Machine σ :=
  { m.say .debug ("Lexer reset with " ++ toString source.length ++ " characters of source") with
    unread := source.toList }

/-- Takes over the surface's extents. -/
def updateSize [Surface σ] (m : Machine σ) : Machine σ :=
  { m with
    registers :=
      (m.registers.set .w (Surface.width m.surface)).set .h (Surface.height m.surface) }

/-- Adds a function, or replaces the one of that name. -/
def define (m : Machine σ) (f : Function) : Machine σ :=
  { m with functions := m.functions.insert f.name f }

def drawRandom (m : Machine σ) : Number × Machine σ :=
  let (value, random) := m.random.next
  (value, { m with random })

/-- The number that a word denotes within a closed range, NaN if there is none: the one it writes,
or the value of the register or variable of that name. -/
def resolve (m : Machine σ) (word : String) (low high : Number) : Number :=
  let written := Number.parse word
  if written.isWithin low high then written
  else if hasSigil word then
    let held := match Register.ofName? word with
      | some r => m.registers.get r
      | none => (m.vars.get? word).getD .nan
    if held.isWithin low high then held else .nan
  else .nan

/-- The number that a word denotes, NaN if there is none. -/
def valueOf (m : Machine σ) (word : String) : Number :=
  m.resolve word (.infinity true) (.infinity false)

/-- The number that a word denotes, which must be one within the range. -/
def demand (m : Machine σ) (word : String) (message : Option String) (low high : Number)
    (level : Level) : Except Fault Number :=
  let n := m.resolve word low high
  if !n.isNaN then .ok n
  else if (m.valueOf word).isNaN then .error (.notNumeric message level)
  else .error (.outOfRange message low high)

/-- The number that a word denotes, which must be one. -/
def number (m : Machine σ) (word : String) : Except Fault Number :=
  m.demand word none (.infinity true) (.infinity false) .error

/-- A coordinate counts back from the far edge when it is negative or written with a minus. -/
def fromEdge (word : String) (value extent : Number) : Number :=
  if value.lt 0 || word.toList.head? == some '-' then value + extent else value

/-- The point that two words denote. -/
def coordinate (m : Machine σ) (x y : String) : Except Fault (Number × Number) := do
  let left ← m.number x
  let top ← m.number y
  return (fromEdge x left (m.registers.get .w), fromEdge y top (m.registers.get .h))

end Machine

end PenMachine
