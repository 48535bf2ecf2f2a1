import PenMachine.Error
import PenMachine.Instruction
import PenMachine.Number.Decimal

/-!
# Functions

A function has a name, a range of argument counts it accepts, names for its arguments that are kept
for display only, and a body. The body is one of the machine's own routines, a routine of the
program that embeds the machine, or instructions recorded from a program.
-/

namespace PenMachine

/-- How the machine answers a request to take one step. -/
inductive Outcome where
  /-- The program is at its end. -/
  | eof
  | executed (instruction : Instruction)
  /-- The instruction was refused and reported; the next one may run. -/
  | failed
  /-- The surface raised an error, which ends the run. -/
  | fatal (error : Error)
  deriving DecidableEq

/-- The routines that every machine has. -/
inductive Builtin where
  | probe | print | log | sin | cos | tan | rand | sqrt
  deriving DecidableEq, Repr

/-- A routine of the embedding program: it answers with a number, or has the machine take a step of
the program first and goes on from the outcome. Routines that do more to the machine are left
out. -/
inductive HostRoutine where
  | done (value : Number)
  | step (resume : Outcome → HostRoutine)

inductive Body where
  | builtin (routine : Builtin)
  | host (routine : List Number → HostRoutine)
  | recorded (instructions : List Instruction)

/-- The argument counts from `least` to `most`. -/
structure Arity where
  least : Nat
  most : Nat
  deriving DecidableEq

namespace Arity

def exactly (n : Nat) : Arity := ⟨n, n⟩

/-- Any count a 64-bit machine can hold. -/
def any : Arity := ⟨0, UInt64.size - 1⟩

def allows (arity : Arity) (n : Nat) : Bool := arity.least ≤ n && n ≤ arity.most

end Arity

structure Function where
  name : String
  arity : Arity
  argNames : List String
  body : Body

namespace Function

/-- A function recorded from a program. It takes no arguments, whatever names it lists. -/
def recorded (name : String) (argNames : List String) (body : List Instruction) : Function :=
  ⟨name, .exactly 0, argNames, .recorded body⟩

/-- The functions of a new machine. -/
def builtins : List Function :=
  [⟨".func", .any, [], .builtin .probe⟩,
   ⟨"nprint", .any, ["..."], .builtin .print⟩,
   ⟨"log", .exactly 1, ["n"], .builtin .log⟩,
   ⟨"sin", .exactly 1, ["x"], .builtin .sin⟩,
   ⟨"cos", .exactly 1, ["x"], .builtin .cos⟩,
   ⟨"tan", .exactly 1, ["x"], .builtin .tan⟩,
   ⟨"rand", .exactly 0, [], .builtin .rand⟩,
   ⟨"sqrt", .exactly 1, ["n"], .builtin .sqrt⟩]

def instructions? (f : Function) : Option (List Instruction) :=
  match f.body with
  | .recorded instructions => some instructions
  | _ => none

/-- The function on one line: name, argument names, argument counts and the kind of its body. -/
def describe (f : Function) : String :=
  let kind := match f.instructions? with
    | some instructions => toString instructions.length ++ " instructions"
    | none => "native"
  "Function \x7b " ++ f.name ++ "(" ++ ", ".intercalate f.argNames ++ ") " ++
    toString f.arity.least ++ "..=" ++ toString f.arity.most ++ " " ++ kind ++ " \x7d"

end Function

end PenMachine
