import PenMachine.Terminal.Console
import PenMachine.Terminal.Folder

/-!
# The command

Reads the command line, runs a script or the console, and does all the reading and writing that the
rest of the library only describes.
-/

namespace PenMachine.Terminal

def fileFailure : IO.Error → FileFailure
  | .noFileOrDirectory .. => .notFound
  | .inappropriateType _ code details =>
    if code = 21 then .isDirectory else if code = 20 then .notDirectory else .other details
  | .invalidArgument _ code details => if code = 36 then .nameTooLong else .other details
  | e => .other (toString e)

def load (path : String) : IO (Except FileFailure String) := do
  try
    match String.fromUTF8? (← IO.FS.readBinFile path) with
    | some source => return .ok source
    | none => return .error .notText
  catch e => return .error (fileFailure e)

def save (report : Report) : IO Report := do
  match report.save with
  | none => return report
  | some (path, content) =>
    try
      IO.FS.writeFile path content
      return report
    catch e => return report.saveFailed (fileFailure e)

def script (options : Options) (seed : UInt64) (path : String) : IO UInt32 := do
  let report := runScript options seed path (← load path)
  IO.print report.output
  let report ← save report
  IO.eprint report.errors
  return report.exitCode.toUInt32

partial def talk (console : Console) : IO UInt32 := do
  IO.print console.prompt
  (← IO.getStdout).flush
  let line ← (← IO.getStdin).getLine
  if line.isEmpty then
    match console.endInput with
    | none => return 0
    | some (text, console) =>
      IO.print text
      talk console
  else
    let (text, console) := console.type (String.ofList (line.toList.filter (· != '\n')))
    IO.print text
    talk console

end PenMachine.Terminal

open PenMachine.Terminal in
def main (args : List String) : IO UInt32 := do
  match Options.parse args with
  | none =>
    IO.eprintln "usage: [FILE] [--width N] [--height N] [--svg PATH] [--seed N] [--verbose]"
    return 2
  | some options =>
    let seed ← match options.seed with
      | some seed => pure seed
      | none => do pure (← IO.rand 0 (UInt64.size - 1)).toUInt64
    match options.file with
    | some path => script options seed path
    | none =>
      IO.print Console.banner
      talk (Console.start options seed)
