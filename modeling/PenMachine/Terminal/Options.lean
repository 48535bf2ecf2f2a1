import PenMachine.Number.Literal

/-!
# Command line

The command line names at most one program and gives options by long names. An option's value is
attached with an equals sign, or is the next argument unless that looks like an option itself.
Everything after `--` is the name of a program. No option may be given twice.
-/

namespace PenMachine.Terminal

structure Options where
  file : Option String
  width : Number
  height : Number
  svg : Option String
  seed : Option UInt64
  verbose : Bool

namespace Options

inductive Key where
  | width | height | svg | seed
  deriving DecidableEq

def Key.ofName? : String → Option Key
  | "width" => some .width
  | "height" => some .height
  | "svg" => some .svg
  | "seed" => some .seed
  | _ => none

/-- A number on the command line: a decimal, or the words for infinity and NaN in any case. Nothing
may stand around it. -/
def number? (text : String) : Option Number :=
  let (negative, unsigned) := Literal.splitSign text.toList
  let word := String.ofList (unsigned.map Char.toLower)
  if word = "inf" ∨ word = "infinity" then some (.infinity negative)
  else if word = "nan" then some .nan
  else (Literal.decimal? text.toList).map Literal.value

/-- A seed on the command line: decimal digits after an optional plus, within 64 bits. -/
def seed? (text : String) : Option UInt64 :=
  let digits := match text.toList with
    | '+' :: rest => rest
    | all => all
  let value := Literal.naturalValue digits
  if digits ≠ [] ∧ digits.all Char.isDigit ∧ value < UInt64.size then some value.toUInt64 else none

def path? (text : String) : Option String := if text = "" then none else some text

/-- What the arguments read so far have given. -/
structure Reading where
  file : Option String
  width : Option Number
  height : Option Number
  svg : Option String
  seed : Option UInt64
  verbose : Bool
  /-- The option whose value comes next. -/
  pending : Option Key
  /-- Whether `--` has ended the options. -/
  ended : Bool

namespace Reading

def start : Reading := ⟨none, none, none, none, none, false, none, false⟩

/-- Fills a place that is still empty. -/
def fill {α : Type} (place value : Option α) : Option (Option α) :=
  if place.isSome then none else value.map some

def give (r : Reading) (key : Key) (value : String) : Option Reading := do
  let r := { r with pending := none }
  match key with
  | .width => return { r with width := ← fill r.width (number? value) }
  | .height => return { r with height := ← fill r.height (number? value) }
  | .svg => return { r with svg := ← fill r.svg (path? value) }
  | .seed => return { r with seed := ← fill r.seed (seed? value) }

def giveFile (r : Reading) (name : String) : Option Reading := do
  return { r with file := ← fill r.file (path? name) }

/-- Takes an option by name, with the value attached to it if there is one. -/
def giveOption (r : Reading) (name : String) (value : Option String) : Option Reading :=
  match Key.ofName? name, value with
  | some key, some value => r.give key value
  | some key, none => some { r with pending := some key }
  | none, none => if name = "verbose" && !r.verbose then some { r with verbose := true } else none
  | none, some _ => none

/-- Whether an argument is read as an option. A lone hyphen is not. -/
def looksLikeOption (arg : List Char) : Bool := arg.head? == some '-' && arg != ['-']

def next (r : Reading) (arg : String) : Option Reading :=
  if r.ended then r.giveFile arg
  else match r.pending with
    | some key => if looksLikeOption arg.toList then none else r.give key arg
    | none =>
      match arg.toList with
      | ['-', '-'] => some { r with ended := true }
      | '-' :: '-' :: rest =>
        let name := String.ofList (rest.takeWhile (· != '='))
        match rest.dropWhile (· != '=') with
        | [] => r.giveOption name none
        | _ :: value => r.giveOption name (some (String.ofList value))
      | chars => if looksLikeOption chars then none else r.giveFile arg

/-- The options, once no argument is left and no value is missing. -/
def finish (r : Reading) : Option Options :=
  if r.pending.isSome then none
  else some ⟨r.file, r.width.getD 640, r.height.getD 480, r.svg, r.seed, r.verbose⟩

end Reading

/-- The options that the arguments give; none when they do not fit together. -/
def parse (args : List String) : Option Options := do
  (← args.foldlM Reading.next Reading.start).finish

end Options

end PenMachine.Terminal
