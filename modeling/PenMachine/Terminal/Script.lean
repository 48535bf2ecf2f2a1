import PenMachine.Canvas.Svg
import PenMachine.Machine.Interpreter
import PenMachine.Terminal.Options
import PenMachine.Terminal.Screen

/-!
# Running a script

A script is loaded, run to its end, summed up in one line, and its drawing saved if that was asked
for. A failure on the way is one red line on the error output and ends everything with exit code 1.
-/

namespace PenMachine.Terminal

/-- Why a file could not be read or written. -/
inductive FileFailure where
  | notFound
  | isDirectory
  | notDirectory
  | nameTooLong
  | notText
  | other (text : String)

def FileFailure.text : FileFailure → String
  | .notFound => "No such file or directory (os error 2)"
  | .isDirectory => "Is a directory (os error 21)"
  | .notDirectory => "Not a directory (os error 20)"
  | .nameTooLong => "File name too long (os error 36)"
  | .notText => "stream did not contain valid UTF-8"
  | .other text => text

/-- A machine with nothing to run yet. -/
def newMachine (options : Options) (seed : UInt64) : Machine Canvas :=
  .initial "" (.empty options.width options.height) seed

/-- What a command leaves behind: its two outputs, its exit code, and a file still to be written. -/
structure Report where
  output : String
  errors : String
  exitCode : Nat
  /-- The path and content of a drawing to save. -/
  save : Option (String × String)

namespace Report

/-- The report with a failure at its end. -/
def fail (report : Report) (error : Error) : Report where
  output := report.output
  errors := report.errors ++ styled Paint.red.code error.message ++ "\n"
  exitCode := 1
  save := none

/-- The report once the drawing could not be saved. -/
def saveFailed (report : Report) (failure : FileFailure) : Report :=
  report.fail ⟨.internalError, failure.text⟩

end Report

def summary (count : Nat) : Message := ⟨.info, "Executed " ++ toString count ++ " instructions."⟩

/-- Runs a script whose file could be read. -/
def runSource (options : Options) (seed : UInt64) (source : String) : Report :=
  let (result, m) := ((newMachine options seed).reset source).run
  let screen := (Screen.blank options.verbose).printAll m.transcript.lines
  match result with
  | .error error => Report.fail ⟨screen.endLine.text, "", 0, none⟩ error
  | .ok count =>
    let screen := (screen.print (summary count) (some .green) false).endLine
    ⟨screen.text, "", 0, options.svg.map fun path ↦ (path, Svg.document m.surface)⟩

/-- Runs the script at a path, given what reading the file came to. -/
def runScript (options : Options) (seed : UInt64) (path : String)
    (loaded : Except FileFailure String) : Report :=
  match loaded with
  | .ok source => runSource options seed source
  | .error failure =>
    Report.fail ⟨"", "", 0, none⟩ ⟨.internalError, path ++ ": " ++ failure.text⟩

end PenMachine.Terminal
