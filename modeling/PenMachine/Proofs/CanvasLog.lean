import Mathlib.Logic.Relation
import PenMachine.Proofs.Denotation

/-!
# The log of a canvas

What a canvas holds when a machine alone has drawn on it from the start. The log is never longer
than its limit and only grows at its end. A line is stroked at once, so a stroke follows every line
but one that took the last place. Registers and variables can hold NaN, but it is stopped on its way
to the canvas: a width is at least zero, an opacity is from zero to one, and a coordinate is a
number as long as the extents are finite (`Canvas.Orderly`).

An instruction draws nothing, one command that is no line, or a line and its stroke (`Figure`).
Drawing a whole figure keeps the canvas orderly, and nothing else touches the canvas or the
registers that hold its extents, so the order lasts through calls and past errors, whatever
functions the embedding program has added (`Machine.lasting_drawsOn`). Everything that can happen to
the machine while only it draws keeps it (`Machine.canvas_log_orderly`).
-/

namespace PenMachine

/-- What is no NaN stays none when a finite number is added. -/
theorem Number.isNaN_add {x y : Number} (hx : x.isNaN = false) (hy : y.isFinite = true) :
    (x + y).isNaN = false := by
  change (x.add y).isNaN = false
  cases y with
  | nan | infinity => cases hy
  | finite =>
    cases x with
    | nan => cases hx
    | infinity => rfl
    | finite =>
      simp only [add]
      split
      · rfl
      · exact isNaN_ofRatio _ _ _

/-- Counting back from a finite edge gives no NaN. -/
theorem Machine.isNaN_fromEdge {word : String} {n extent : Number} (hn : n.isNaN = false)
    (hextent : extent.isFinite = true) : (fromEdge word n extent).isNaN = false := by
  unfold fromEdge
  split
  · exact Number.isNaN_add hn hextent
  · exact hn

/-- The opacities that a colour can have. -/
def Color.Valid : Color → Prop
  | .named _ => True
  | .rgba _ _ _ alpha => alpha.isNaN = false ∧ alpha.isWithin 0 1 = true

/-- The commands that can be on a canvas. Whether coordinates are numbers depends on whether all
extents are finite. -/
def Command.Valid (finite : Prop) : Command → Prop
  | .width value => value.isNaN = false ∧ Number.le 0 value = true
  | .strokeStyle color | .fillStyle color => color.Valid
  | .move x y | .line x y => finite → x.isNaN = false ∧ y.isNaN = false
  | _ => True

/-- What one instruction draws. -/
inductive Figure (finite : Prop) : List Command → Prop where
  | single {command : Command} (valid : command.Valid finite)
    (noLine : ∀ x y, command ≠ .line x y) : Figure finite [command]
  | line {x y : Number} (valid : (Command.line x y).Valid finite) :
    Figure finite [.line x y, .stroke]

section Figures

variable {σ : Type} {m : Machine σ} {finite : Prop}

/-- Whether the extents that the machine goes by are finite. -/
def Machine.HasFiniteExtents (m : Machine σ) : Prop :=
  (m.registers.get .w).isFinite = true ∧ (m.registers.get .h).isFinite = true

theorem Machine.isNaN_of_coordinate {x y : String} {p : Number × Number}
    (hm : m.HasFiniteExtents) (h : m.coordinate x y = .ok p) :
    p.1.isNaN = false ∧ p.2.isNaN = false := by
  obtain ⟨left, hleft, h⟩ := bind_eq_ok_iff.1 h
  obtain ⟨top, htop, h⟩ := bind_eq_ok_iff.1 h
  cases h
  exact ⟨isNaN_fromEdge (isNaN_of_number hleft) hm.1, isNaN_fromEdge (isNaN_of_number htop) hm.2⟩

/-- The opacity of a colour has been checked to lie between 0 and 1. -/
theorem Machine.valid_of_colorOf {parts : List String} {color : Color}
    (h : m.colorOf parts = .ok color) : color.Valid := by
  unfold colorOf at h
  split at h
  · cases h
    trivial
  · obtain ⟨red, -, h⟩ := bind_eq_ok_iff.1 h
    obtain ⟨green, -, h⟩ := bind_eq_ok_iff.1 h
    obtain ⟨blue, -, h⟩ := bind_eq_ok_iff.1 h
    obtain ⟨alpha, halpha, h⟩ := bind_eq_ok_iff.1 h
    cases h
    have hwithin := isWithin_of_demand halpha
    exact ⟨Number.isNaN_of_isWithin hwithin, hwithin⟩
  · cases h

/-- What a plan has drawn is a figure. -/
theorem Plans.figure {s : Statement} {commands : List Command} (h : Plans m s (.draw commands))
    (hfinite : finite → m.HasFiniteExtents) : Figure finite commands := by
  cases h with
  | callWhen _ called => cases called
  | setWhen _ set => cases set
  | path known =>
    rcases known with rfl | rfl
    · exact .single trivial (by simp)
    · exact .single trivial (by simp)
  | fill => exact .single trivial (by simp)
  | stroke => exact .single trivial (by simp)
  | move valued =>
    exact .single (fun h ↦ Machine.isNaN_of_coordinate (hfinite h) valued) (by simp)
  | line valued => exact .line fun h ↦ Machine.isNaN_of_coordinate (hfinite h) valued
  | width valued =>
    have hwithin := Machine.isWithin_of_demand valued
    have hleast := (Bool.and_eq_true_iff.1 hwithin).1
    exact .single ⟨Number.isNaN_of_isWithin hwithin, hleast⟩ (by simp)
  | strokeColor valued => exact .single (Machine.valid_of_colorOf valued) (by simp)
  | fillColor valued => exact .single (Machine.valid_of_colorOf valued) (by simp)

end Figures

namespace Canvas

/-- What holds of a canvas that only a machine has drawn on. -/
structure Orderly (finite : Prop) (canvas : Canvas) : Prop where
  size : canvas.commands.size ≤ 65535
  stroked : ∀ (k : Nat) (x y : Number), canvas.commands[k]? = some (.line x y) → k ≠ 65534 →
    canvas.commands[k + 1]? = some .stroke
  valid : ∀ command ∈ canvas.commands, command.Valid finite

variable {finite : Prop} {canvas : Canvas} {command : Command}

theorem orderly_empty (width height : Number) : (empty width height).Orderly finite where
  size := Nat.zero_le _
  stroked k x y hk := by simp [empty] at hk
  valid command hcommand := by simp [empty] at hcommand

theorem Orderly.resize (h : canvas.Orderly finite) (width height : Number) :
    (canvas.resize width height).Orderly finite :=
  ⟨h.size, h.stroked, h.valid⟩

theorem Orderly.valid_push (h : canvas.Orderly finite) (hcommand : command.Valid finite) :
    ∀ c ∈ canvas.commands.push command, c.Valid finite := by
  intro c hc
  rcases Array.mem_push.1 hc with hold | rfl
  · exact h.valid c hold
  · exact hcommand

theorem getElem?_push_of_eq_some {commands : Array Command} {k : Nat} {found : Command}
    (h : commands[k]? = some found) : (commands.push command)[k]? = some found := by
  obtain ⟨hlt, -⟩ := Array.getElem?_eq_some_iff.1 h
  rw [Array.getElem?_push_lt hlt, ← h, Array.getElem?_eq_getElem hlt]

/-- A line that has its stroke behind it keeps it. -/
theorem Orderly.stroked_push (h : canvas.Orderly finite) {k : Nat} {x y : Number}
    (hk : canvas.commands[k]? = some (.line x y)) (hlast : k ≠ 65534) :
    (canvas.commands.push command)[k + 1]? = some .stroke :=
  getElem?_push_of_eq_some (h.stroked k x y hk hlast)

/-- Any command but a line may come by itself. -/
theorem Orderly.record (h : canvas.Orderly finite) (hroom : canvas.refusal? = none)
    (hvalid : command.Valid finite) (hline : ∀ x y, command ≠ .line x y) :
    (canvas.record command).Orderly finite where
  size := withinCapacity_record hroom
  stroked k x y hk hlast := by
    rw [Canvas.record, Array.getElem?_push] at hk
    split at hk
    · cases hk
      exact absurd rfl (hline x y)
    · exact h.stroked_push hk hlast
  valid := h.valid_push hvalid

/-- If there is no room for the stroke of a line, the line has the last place. -/
theorem Orderly.record_line (h : canvas.Orderly finite) {x y : Number}
    (hroom : canvas.refusal? = none) (hvalid : (Command.line x y).Valid finite)
    (hfull : (canvas.record (.line x y)).refusal? ≠ none) :
    (canvas.record (.line x y)).Orderly finite where
  size := withinCapacity_record hroom
  stroked k x' y' hk hlast := by
    rw [Canvas.record, Array.getElem?_push] at hk
    split at hk
    · rename_i hplace
      obtain ⟨error, herror⟩ := Option.ne_none_iff_exists'.1 hfull
      have hsize := ((refusal?_eq_some_iff (withinCapacity_record hroom)).1 herror).2
      rw [Canvas.record, Array.size_push, capacity] at hsize
      omega
    · exact h.stroked_push hk hlast
  valid := h.valid_push hvalid

/-- With room for both, a line and its stroke take the next two places. -/
theorem Orderly.record_line_stroke (h : canvas.Orderly finite) {x y : Number}
    (hvalid : (Command.line x y).Valid finite)
    (hroom : (canvas.record (.line x y)).refusal? = none) :
    ((canvas.record (.line x y)).record .stroke).Orderly finite where
  size := withinCapacity_record hroom
  stroked k x' y' hk hlast := by
    simp only [Canvas.record] at hk ⊢
    rw [Array.getElem?_push] at hk
    split at hk
    · cases hk
    · rw [Array.getElem?_push] at hk
      split at hk
      · rename_i hplace
        rw [hplace, Array.getElem?_push, Array.size_push, if_pos rfl]
      · exact getElem?_push_of_eq_some (h.stroked_push hk hlast)
  valid := by
    intro c hc
    rcases Array.mem_push.1 hc with hold | rfl
    · exact h.valid_push hvalid c hold
    · trivial

/-- The log stays the start of itself, and the extents stay. -/
theorem draw_extends (canvas : Canvas) (command : Command) :
    canvas.commands.toList <+: (canvas.draw command).commands.toList ∧
      (canvas.draw command).width = canvas.width ∧
      (canvas.draw command).height = canvas.height := by
  unfold draw
  split
  · refine ⟨?_, rfl, rfl⟩
    rw [Canvas.record, Array.toList_push]
    exact List.prefix_append _ _
  · exact ⟨List.prefix_refl _, rfl, rfl⟩

end Canvas

namespace Machine

variable {finite : Prop}

/-- Drawing a figure keeps the canvas orderly, also when the surface refuses a part of it. -/
theorem orderly_drawAll {m : Machine Canvas} {commands : List Command}
    (hm : m.surface.Orderly finite) (h : Figure finite commands) :
    (drawAll commands m).2.surface.Orderly finite := by
  cases h with
  | @single command valid noLine =>
    cases hrefusal : m.surface.refusal? with
    | some error => simpa [drawAll, Surface.refusal?, Surface.draw, Canvas.draw, hrefusal] using hm
    | none =>
      have hdrawn := hm.record hrefusal valid noLine
      simpa [drawAll, Surface.refusal?, Surface.draw, Canvas.draw, hrefusal] using hdrawn
  | @line x y valid =>
    cases hrefusal : m.surface.refusal? with
    | some error => simpa [drawAll, Surface.refusal?, Surface.draw, Canvas.draw, hrefusal] using hm
    | none =>
      cases hstroke : (m.surface.record (.line x y)).refusal? with
      | some error =>
        have hdrawn := hm.record_line hrefusal valid (by simp [hstroke])
        simpa [drawAll, Surface.refusal?, Surface.draw, Canvas.draw, hrefusal, hstroke] using hdrawn
      | none =>
        have hdrawn := hm.record_line_stroke valid hstroke
        simpa [drawAll, Surface.refusal?, Surface.draw, Canvas.draw, hrefusal, hstroke] using hdrawn

/-- What is in the log stays there, and more is added at its end. The extents stay. -/
theorem drawAll_extends (commands : List Command) (m : Machine Canvas) :
    m.surface.commands.toList <+: (drawAll commands m).2.surface.commands.toList ∧
      (drawAll commands m).2.surface.width = m.surface.width ∧
      (drawAll commands m).2.surface.height = m.surface.height := by
  refine (accounts_drawAll commands).trace.invariant
    (I := fun n : Machine Canvas ↦ m.surface.commands.toList <+: n.surface.commands.toList ∧
      n.surface.width = m.surface.width ∧ n.surface.height = m.surface.height) ?_
    ⟨List.prefix_refl _, rfl, rfl⟩
  intro n e allowed hn
  cases e with
  | draw command | refusal command error =>
    obtain ⟨hlog, hwidth, hheight⟩ := n.surface.draw_extends command
    exact ⟨hn.1.trans hlog, hwidth.trans hn.2.1, hheight.trans hn.2.2⟩
  | _ => exact hn

end Machine

/-! ## Drawing alone -/

/-- What is known of a machine that alone has drawn on its canvas. Its extents are possible ones,
both those that the canvas has and those that were last measured. -/
structure DrewAlone (possible : Number → Prop) (m : Machine Canvas) : Prop where
  width : possible m.surface.width
  height : possible m.surface.height
  measuredWidth : possible (m.registers.get .w)
  measuredHeight : possible (m.registers.get .h)
  orderly : m.surface.Orderly (∀ extent, possible extent → extent.isFinite = true)

/-- What can happen to a machine that alone draws on its canvas. The embedding program may add
functions, resize the canvas to extents that are possible, have it measured and read off messages.
-/
inductive DrawsAlone (possible : Number → Prop) : Machine Canvas → Machine Canvas → Prop where
  | serve (m : Machine Canvas) (r : Request) : DrawsAlone possible m (r.serve m)
  | define (m : Machine Canvas) (f : Function) : DrawsAlone possible m (m.define f)
  | updateSize (m : Machine Canvas) : DrawsAlone possible m m.updateSize
  | takeMessages (m : Machine Canvas) : DrawsAlone possible m m.takeMessages.2
  | resize (m : Machine Canvas) {width height : Number} (hwidth : possible width)
    (hheight : possible height) :
    DrawsAlone possible m { m with surface := m.surface.resize width height }

/-- Whether one machine has drawn alone if another has, and the log has only grown at its end. -/
def DrawsOn (possible : Number → Prop) (m m' : Machine Canvas) : Prop :=
  (DrewAlone possible m → DrewAlone possible m') ∧
    m.surface.commands.toList <+: m'.surface.commands.toList

namespace DrewAlone

variable {possible : Number → Prop} {m m' : Machine Canvas}

theorem initial {width height : Number} (hwidth : possible width) (hheight : possible height)
    (source : String) (seed : UInt64) :
    DrewAlone possible (.initial source (Canvas.empty width height) seed) where
  width := hwidth
  height := hheight
  measuredWidth := by
    simpa [Machine.initial, Registers.initial, Registers.get_set, Surface.width,
      Canvas.empty] using hwidth
  measuredHeight := by
    simpa [Machine.initial, Registers.initial, Registers.get_set, Surface.height,
      Canvas.empty] using hheight
  orderly := Canvas.orderly_empty width height

/-- Only the canvas and the extents that were measured matter. -/
theorem congr (h : DrewAlone possible m) (hsurface : m'.surface = m.surface)
    (hwidth : m'.registers.get .w = m.registers.get .w)
    (hheight : m'.registers.get .h = m.registers.get .h) : DrewAlone possible m' := by
  refine ⟨?_, ?_, ?_, ?_, ?_⟩
  · rw [hsurface]
    exact h.width
  · rw [hsurface]
    exact h.height
  · rw [hwidth]
    exact h.measuredWidth
  · rw [hheight]
    exact h.measuredHeight
  · rw [hsurface]
    exact h.orderly

end DrewAlone

namespace DrawsOn

variable {possible : Number → Prop} {m m' m₁ : Machine Canvas}

theorem refl (m : Machine Canvas) : DrawsOn possible m m := ⟨id, List.prefix_refl _⟩

theorem trans (h₁ : DrawsOn possible m m₁) (h₂ : DrawsOn possible m₁ m') :
    DrawsOn possible m m' :=
  ⟨h₂.1 ∘ h₁.1, h₁.2.trans h₂.2⟩

theorem of_eq (hsurface : m'.surface = m.surface)
    (hwidth : m'.registers.get .w = m.registers.get .w)
    (hheight : m'.registers.get .h = m.registers.get .h) : DrawsOn possible m m' := by
  refine ⟨fun h ↦ h.congr hsurface hwidth hheight, ?_⟩
  simp [hsurface]

/-- A statement has its whole figure drawn, with the extents that were measured. -/
theorem drawAll {s : Statement} {commands : List Command}
    (hplan : m.plan s = .ok (.draw commands)) :
    DrawsOn possible m (Machine.drawAll commands m).2 := by
  obtain ⟨hlog, hwidth, hheight⟩ := Machine.drawAll_extends commands m
  refine ⟨fun h ↦ ?_, hlog⟩
  have hregisters : (Machine.drawAll commands m).2.registers = m.registers := by
    rw [Machine.drawAll_eq]
  have hextents (hfinite : ∀ extent, possible extent → extent.isFinite = true) :
      m.HasFiniteExtents :=
    ⟨hfinite _ h.measuredWidth, hfinite _ h.measuredHeight⟩
  have hfigure := (Machine.plans_of_plan hplan).figure hextents
  refine ⟨?_, ?_, ?_, ?_, Machine.orderly_drawAll h.orderly hfigure⟩
  · rw [hwidth]
    exact h.width
  · rw [hheight]
    exact h.height
  · rw [hregisters]
    exact h.measuredWidth
  · rw [hregisters]
    exact h.measuredHeight

/-- No instruction writes to the registers that hold the extents. -/
theorem event {e : Event} (allowed : e.Allowed m) (inner : e.IsInner) :
    DrawsOn possible m (e.apply m) := by
  cases e with
  | setRegister r value =>
    have hextent (extent : Register) (hextent : extent = .w ∨ extent = .h) : r ≠ extent := by
      rcases allowed with rfl | ⟨op, rfl⟩ | ⟨rfl, -⟩
      · rcases hextent with rfl | rfl <;> decide
      · rcases hextent with rfl | rfl <;> cases op <;> decide
      · rcases hextent with rfl | rfl <;> decide
    refine of_eq rfl ?_ ?_
    · exact (Registers.get_set ..).trans (if_neg (hextent .w (.inl rfl)))
    · exact (Registers.get_set ..).trans (if_neg (hextent .h (.inr rfl)))
  | draw | refusal | advance => exact inner.elim
  | _ => exact of_eq rfl rfl rfl

end DrawsOn

namespace Machine

variable {possible : Number → Prop} {m m' : Machine Canvas}

/-- Every single change keeps to it, so everything that a machine does keeps to it. -/
theorem lasting_drawsOn (possible : Number → Prop) : Lasting (DrawsOn possible) where
  refl := .refl
  trans := .trans
  event := .event
  draw := .drawAll
  next _ := .of_eq rfl rfl rfl
  nested _ := .of_eq rfl rfl rfl
  depth _ _ := .of_eq rfl rfl rfl

/-- Whatever happens to the machine, it has drawn alone afterwards if it had before. -/
theorem drawsOn_of_drawsAlone (h : DrawsAlone possible m m') : DrawsOn possible m m' := by
  cases h with
  | serve r =>
    cases r with
    | reset source => exact .of_eq rfl rfl rfl
    | step => exact (lasting_drawsOn possible).along_step m
    | run => exact (lasting_drawsOn possible).along_runWithin _ _ m
    | interpret i => exact (lasting_drawsOn possible).along_interpret i m
  | define | takeMessages => exact .of_eq rfl rfl rfl
  | updateSize =>
    refine ⟨fun h ↦ ⟨h.width, h.height, ?_, ?_, h.orderly⟩, List.prefix_refl _⟩
    · simpa [updateSize, Registers.get_set, Surface.width] using h.width
    · simpa [updateSize, Registers.get_set, Surface.height] using h.height
  | @resize width height hwidth hheight =>
    refine ⟨fun h ↦ ?_, List.prefix_refl _⟩
    exact ⟨hwidth, hheight, h.measuredWidth, h.measuredHeight, h.orderly.resize width height⟩

theorem drawsOn_of_moves (h : Relation.ReflTransGen (DrawsAlone possible) m m') :
    DrawsOn possible m m' := by
  induction h with
  | refl => exact .refl m
  | tail _ hmove ih => exact ih.trans (drawsOn_of_drawsAlone hmove)

/-- Whatever a machine is asked for while it alone draws on a canvas that was empty, and whatever
comes of it, the canvas is orderly, and the log that it has later starts with the one that it has
now. That coordinates are numbers needs that all extents are finite. -/
theorem canvas_log_orderly {possible : Number → Prop} {width height : Number}
    (hwidth : possible width) (hheight : possible height) (source : String) (seed : UInt64)
    {m m' : Machine Canvas}
    (hm : Relation.ReflTransGen (DrawsAlone possible)
      (initial source (Canvas.empty width height) seed) m)
    (hm' : Relation.ReflTransGen (DrawsAlone possible) m m') :
    m.surface.Orderly (∀ extent, possible extent → extent.isFinite = true) ∧
      m.surface.commands.toList <+: m'.surface.commands.toList := by
  have hdrew := (drawsOn_of_moves hm).1 (.initial hwidth hheight source seed)
  exact ⟨hdrew.orderly, (drawsOn_of_moves hm').2⟩

/-- A routine of the embedding program that has the next instruction carried out. -/
def stepper : Function := ⟨"next", .exactly 0, [], .host fun _ ↦ .step fun _ ↦ .done 0⟩

/-- A machine with such a routine and a line to draw, which counts back from the lower edge. -/
def beforeLine : Machine Canvas := Request.serve (.reset "line 3 -4") ((fresh "").define stepper)

def withLine : Machine Canvas := Request.serve (.interpret ⟨"call", ["next"]⟩) beforeLine

theorem commands_withLine : withLine.surface.commands = #[.line 3 476, .stroke] := by
  have hfound : beforeLine.functions["next"]? = some stepper :=
    getElem?_define_self (fresh "") stepper
  obtain ⟨deeper, hinterpret⟩ := exists_interpret ⟨"call", ["next"]⟩ beforeLine
  rw [withLine, Request.serve, hinterpret, interpretWith_performed rfl rfl (plan_call hfound rfl)]
  change (stepWithin beforeLine.unread beforeLine).2.surface.commands = _
  decide +kernel

def extentsOfWithLine (extent : Number) : Prop := extent = 640 ∨ extent = 480 ∨ extent = 100

/-- The line is on the canvas with its stroke, and stays there when the canvas is resized. -/
theorem withLine_orderly :
    withLine.surface.commands = #[.line 3 476, .stroke] ∧
      withLine.surface.Orderly (∀ extent, extentsOfWithLine extent → extent.isFinite = true) ∧
      withLine.surface.commands.toList <+: (withLine.surface.resize 100 100).commands.toList := by
  have hwidth : extentsOfWithLine 640 := .inl rfl
  have hheight : extentsOfWithLine 480 := .inr (.inl rfl)
  have hsquare : extentsOfWithLine 100 := .inr (.inr rfl)
  have hbefore : Relation.ReflTransGen (DrawsAlone extentsOfWithLine) (fresh "") beforeLine :=
    (Relation.ReflTransGen.single (.define _ _)).tail (.serve _ _)
  have hdrawn : Relation.ReflTransGen (DrawsAlone extentsOfWithLine) (fresh "") withLine :=
    hbefore.tail (.serve _ _)
  have hresized : Relation.ReflTransGen (DrawsAlone extentsOfWithLine) withLine
      { withLine with surface := withLine.surface.resize 100 100 } :=
    .single (.resize _ hsquare hsquare)
  obtain ⟨horderly, hprefix⟩ := canvas_log_orderly hwidth hheight "" 7 hdrawn hresized
  exact ⟨commands_withLine, horderly, hprefix⟩

end Machine

end PenMachine
