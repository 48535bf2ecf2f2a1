import PenMachine.Message

/-!
# Painted lines

How messages look on a terminal. Each level has a colour and some a label; a message may bring a
colour of its own. The line of the last message stays open until something closes it, so that every
message ends up on exactly one line whatever is written next.
-/

namespace PenMachine.Terminal

inductive Paint where
  | black | red | green | yellow | blue | purple | cyan | white
  | fixed (index : Nat)
  | rgb (red green blue : Nat)
  deriving DecidableEq

def Paint.code : Paint → String
  | .black => "30"
  | .red => "31"
  | .green => "32"
  | .yellow => "33"
  | .blue => "34"
  | .purple => "35"
  | .cyan => "36"
  | .white => "37"
  | .fixed index => "38;5;" ++ toString index
  | .rgb r g b => "38;2;" ++ toString r ++ ";" ++ toString g ++ ";" ++ toString b

def dimCode : String := "2"

def boldCode : String := "1"

/-- A text between the escape sequences that switch a code on and everything off. -/
def styled (code text : String) : String := "\x1b[" ++ code ++ "m" ++ text ++ "\x1b[0m"

/-- The label in front of a message and the code it is shown with. -/
def levelStyle : Level → String × String
  | .debug | .log => ("", dimCode)
  | .info => ("[INFO]: ", Paint.white.code)
  | .warn => ("[WARN]: ", Paint.yellow.code)
  | .error => ("[ERROR]: ", Paint.red.code)

/-- A message with its looks. A paint takes the place of the level's own; a raw text has neither
label nor style. -/
def decorate (message : Message) (paint : Option Paint) (raw : Bool) : String :=
  if raw then message.text
  else
    let (label, code) := levelStyle message.level
    styled ((paint.map Paint.code).getD code) (label ++ message.text)

/-- What has been written to a terminal. -/
structure Screen where
  verbose : Bool
  lineOpen : Bool
  text : String

namespace Screen

def blank (verbose : Bool) : Screen := ⟨verbose, false, ""⟩

def endLine (screen : Screen) : Screen :=
  if screen.lineOpen then { screen with lineOpen := false, text := screen.text ++ "\n" } else screen

/-- Starts a line with a text and leaves it open. -/
def openLine (screen : Screen) (text : String) : Screen :=
  let closed := screen.endLine
  { closed with lineOpen := true, text := closed.text ++ text }

/-- Puts a message on a line of its own. Debug messages show only on a verbose screen. -/
def print (screen : Screen) (message : Message) (paint : Option Paint) (raw : Bool) : Screen :=
  if message.level = .debug && !screen.verbose then screen
  else screen.openLine (decorate message paint raw)

/-- Puts messages of the machine on lines of their own. -/
def printAll (screen : Screen) (messages : Array Message) : Screen :=
  messages.foldl (fun screen message ↦ screen.print message none false) screen

end Screen

end PenMachine.Terminal
