import PenMachine.Canvas.Command

/-!
# The recording canvas

A canvas keeps the commands it is given, up to a limit, and has extents that can be changed.
-/

namespace PenMachine

structure Canvas where
  width : Number
  height : Number
  commands : Array Command
  deriving DecidableEq

namespace Canvas

/-- How many commands a canvas holds. -/
def capacity : Nat := 65535

def empty (width height : Number) : Canvas := ⟨width, height, #[]⟩

def full : Error := ⟨.outOfMemory, "CANVAS COMMAND LIMIT REACHED"⟩

/-- The commands so far and one more. -/
def record (canvas : Canvas) (command : Command) : Canvas :=
  { canvas with commands := canvas.commands.push command }

/-- A canvas refuses every command once it is full. -/
def refusal? (canvas : Canvas) : Option Error :=
  if canvas.commands.size < capacity then none else some full

/-- The canvas after a command. One that is refused leaves it as it was. -/
def draw (canvas : Canvas) (command : Command) : Canvas :=
  if canvas.refusal?.isNone then canvas.record command else canvas

theorem draw_of_refusal?_eq_none {canvas : Canvas} (h : canvas.refusal? = none)
    (command : Command) : canvas.draw command = canvas.record command := by
  simp [draw, h]

theorem draw_of_refusal?_eq_some {canvas : Canvas} {error : Error}
    (h : canvas.refusal? = some error) (command : Command) : canvas.draw command = canvas := by
  simp [draw, h]

def clear (canvas : Canvas) : Canvas := { canvas with commands := #[] }

def resize (canvas : Canvas) (width height : Number) : Canvas := { canvas with width, height }

instance : Surface Canvas where
  width := Canvas.width
  height := Canvas.height
  refusal? canvas _ := canvas.refusal?
  draw := draw

end Canvas

end PenMachine
