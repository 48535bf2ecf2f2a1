import PenMachine.Canvas.Basic
import PenMachine.Text.Blank

/-!
# Pictures

A canvas as an SVG document. The commands are read from first to last with the path built so far and
the current styles in hand; every stroke or fill of a path that is not empty becomes one element.
-/

namespace PenMachine.Svg

def replaceChar (old : Char) (new : String) (text : List Char) : List Char :=
  text.flatMap fun c ↦ if c = old then new.toList else [c]

/-- The text as it may stand between double quotes in an attribute. The ampersand goes first, so
that those of the entities are left alone. -/
def escape (text : String) : String :=
  text.toList
    |> replaceChar '&' "&amp;"
    |> replaceChar '"' "&quot;"
    |> replaceChar '<' "&lt;"
    |> replaceChar '>' "&gt;"
    |> String.ofList

/-- What the commands read so far have set up: the segments of the path, each with a space behind
it, and the styles. -/
structure Pen where
  path : String
  width : Number
  strokeStyle : Color
  fillStyle : Color

def Pen.initial : Pen := ⟨"", 1, .named "black", .named "black"⟩

/-- The path as the value of a `d` attribute, where no space is left at its end. -/
def Pen.trimmedPath (pen : Pen) : String := .ofList (Text.trimRight pen.path.toList)

def Pen.apply (pen : Pen) : Command → Pen
  | .begin => { pen with path := "" }
  | .close => { pen with path := pen.path ++ "Z " }
  | .move x y => { pen with path := pen.path ++ "M " ++ x.toText ++ " " ++ y.toText ++ " " }
  | .line x y => { pen with path := pen.path ++ "L " ++ x.toText ++ " " ++ y.toText ++ " " }
  | .width value => { pen with width := value }
  | .strokeStyle color => { pen with strokeStyle := color }
  | .fillStyle color => { pen with fillStyle := color }
  | .stroke | .fill => pen

/-- The element that a command adds to the picture, if it adds one. -/
def Pen.element? (pen : Pen) : Command → Option String
  | .stroke =>
    if pen.path.isEmpty then none
    else some <| "  <path d=\"" ++ pen.trimmedPath ++ "\" fill=\"none\" stroke=\"" ++
      escape pen.strokeStyle.toText ++ "\" stroke-width=\"" ++ pen.width.toText ++ "\"/>\n"
  | .fill =>
    if pen.path.isEmpty then none
    else some <| "  <path d=\"" ++ pen.trimmedPath ++ "\" fill=\"" ++
      escape pen.fillStyle.toText ++ "\" stroke=\"none\"/>\n"
  | _ => none

/-- The pen and the document so far, after one more command. -/
def Pen.write (pen : Pen) (out : String) (command : Command) : Pen × String :=
  (pen.apply command, out ++ (pen.element? command).getD "")

def header (width height : Number) : String :=
  "<svg xmlns=\"http://www.w3.org/2000/svg\" width=\"" ++ width.toText ++ "\" height=\"" ++
    height.toText ++ "\" viewBox=\"0 0 " ++ width.toText ++ " " ++ height.toText ++ "\">\n"

def footer : String := "</svg>\n"

def document (canvas : Canvas) : String :=
  let start := (Pen.initial, header canvas.width canvas.height)
  (canvas.commands.foldl (fun (pen, out) command ↦ pen.write out command) start).2 ++ footer

end PenMachine.Svg
