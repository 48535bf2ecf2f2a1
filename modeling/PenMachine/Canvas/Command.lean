import PenMachine.Error
import PenMachine.Number.Decimal

/-!
# Drawing commands

The commands that a drawing surface takes. A path is built from moves, lines and closings, and then
stroked or filled with the current width and styles. A surface has extents and may refuse a command
with an error. Nothing is said of the surface then: it may stay as it was or change all the same.
-/

namespace PenMachine

/-- A style's colour: a name, taken as it is, or three channels and an opacity. -/
inductive Color where
  | named (name : String)
  | rgba (red green blue : UInt8) (alpha : Number)
  deriving DecidableEq

def Color.toText : Color → String
  | .named name => name
  | .rgba r g b a => s!"rgba({r.toNat}, {g.toNat}, {b.toNat}, {a.toText})"

inductive Command where
  | begin
  | close
  | stroke
  | fill
  | width (value : Number)
  | strokeStyle (color : Color)
  | fillStyle (color : Color)
  | move (x y : Number)
  | line (x y : Number)
  deriving DecidableEq

/-- What a machine draws on. -/
class Surface (σ : Type) where
  width : σ → Number
  height : σ → Number
  /-- The error that a command is refused with, if it is refused. -/
  refusal? : σ → Command → Option Error
  /-- The surface after a command, whether it was refused or not. -/
  draw : σ → Command → σ

end PenMachine
