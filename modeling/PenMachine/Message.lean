/-!
# Messages

Everything the machine has to say is a message with a level. A transcript keeps messages line by
line; a message starts a line of its own unless it is placed on the last one.
-/

namespace PenMachine

/-- How important a message is, from least to most. -/
inductive Level where
  | debug | log | info | warn | error
  deriving DecidableEq, Repr

namespace Level

def rank : Level → Nat
  | .debug => 0
  | .log => 1
  | .info => 2
  | .warn => 3
  | .error => 4

/-- Whether a message of this level passes a filter for `least` and above. -/
def reaches (level least : Level) : Bool := least.rank ≤ level.rank

end Level

structure Message where
  level : Level
  text : String
  deriving DecidableEq

/-- Where a message goes in relation to the line before it. -/
inductive Placement where
  | newLine | sameLine | replace
  deriving DecidableEq

/-- The lines written so far, oldest first. -/
structure Transcript where
  lines : Array Message
  deriving DecidableEq

namespace Transcript

def empty : Transcript := ⟨#[]⟩

/-- A message placed on the last line lengthens it and leaves its level alone. -/
def write (transcript : Transcript) (message : Message) : Placement → Transcript
  | .newLine => ⟨transcript.lines.push message⟩
  | .sameLine =>
    match transcript.lines.back? with
    | some last => ⟨transcript.lines.pop.push { last with text := last.text ++ message.text }⟩
    | none => ⟨transcript.lines.push message⟩
  | .replace => ⟨transcript.lines.pop.push message⟩

/-- The lines of the given level and above, each closed by a newline. -/
def text (transcript : Transcript) (least : Level) : String :=
  transcript.lines.foldl
    (fun out line ↦ if line.level.reaches least then out ++ line.text ++ "\n" else out) ""

end Transcript

end PenMachine
