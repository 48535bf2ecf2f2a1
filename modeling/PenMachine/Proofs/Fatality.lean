import PenMachine.Canvas.Basic
import PenMachine.Proofs.Reachable

/-!
# Fatal errors

A fatal error comes from the surface and from nowhere else. `Machine.fatal_iff_surface_refuses` says
so of every reachable machine, at every depth of calls: an instruction ends in an error just when
the surface refused a command meanwhile, the error is that of the first refusal, and from there on
calls are left and nothing else happens. It all follows from the account of the instruction's
events, where a refusal can only be followed by leaving calls.

A canvas refuses when it is full, and no canvas ever holds more than that.
-/

namespace PenMachine

variable {σ : Type}

/-- An error is reported just when the surface refused with it. -/
theorem Stops.refusal_iff {events : List Event} {error? : Option Error} (h : Stops events error?)
    (error : Error) : (∃ command, .refusal command error ∈ events) ↔ error? = some error := by
  cases error? with
  | none =>
    constructor
    · intro ⟨command, hmem⟩
      exact absurd hmem (h command error)
    · intro heq
      cases heq
  | some first =>
    obtain ⟨before, command, calls, hquiet, rfl⟩ := h
    constructor
    · intro ⟨command', hmem⟩
      rcases List.mem_append.1 hmem with hmem | hmem
      · exact absurd hmem (hquiet command' error)
      · rcases List.mem_cons.1 hmem with heq | hmem
        · cases heq
          rfl
        · exact absurd (List.eq_of_mem_replicate hmem) (by simp)
    · intro heq
      cases heq
      exact ⟨command, by simp⟩

theorem Trace.eq_of_leave [Surface σ] {m m' : Machine σ} {calls : Nat}
    (h : Trace m (List.replicate calls .leave) m') : m' = { m with depth := m'.depth } := by
  induction calls generalizing m with
  | zero =>
    cases h
    rfl
  | succ calls ih =>
    rw [List.replicate_succ] at h
    cases h with
    | cons _ rest =>
      have heq := ih rest
      exact heq

/-- Nothing changes between the first refusal and the end. -/
theorem Accounts.unchanged_after_refusal [Surface σ] {m m' : Machine σ} {events : List Event}
    {error : Error} (h : Accounts m events (some error) m') :
    ∃ (before : List Event) (command : Command) (calls : Nat) (m₁ : Machine σ),
      events = before ++ .refusal command error :: List.replicate calls .leave ∧ Quiet before ∧
        Trace m before m₁ ∧ Surface.refusal? m₁.surface command = some error ∧
        m' = { m₁ with surface := Surface.draw m₁.surface command, depth := m.depth } := by
  obtain ⟨before, command, calls, hquiet, rfl⟩ := h.stops
  obtain ⟨m₁, hbefore, hafter⟩ := h.trace.split
  cases hafter with
  | cons hrefusal hleave =>
    refine ⟨before, command, calls, m₁, rfl, hquiet, hbefore, hrefusal, ?_⟩
    have heq := hleave.eq_of_leave
    rwa [h.depth] at heq

namespace Canvas

def WithinCapacity (canvas : Canvas) : Prop := canvas.commands.size ≤ capacity

/-- A canvas refuses just when it is full, always with the same error. -/
theorem refusal?_eq_some_iff {canvas : Canvas} (h : canvas.WithinCapacity) {error : Error} :
    canvas.refusal? = some error ↔ error = full ∧ canvas.commands.size = capacity := by
  unfold WithinCapacity at h
  unfold refusal?
  split
  · simp
    omega
  · simp only [Option.some.injEq, eq_comm (a := full)]
    have hfull : canvas.commands.size = capacity := by omega
    simp [hfull]

theorem withinCapacity_record {canvas : Canvas} {command : Command}
    (h : canvas.refusal? = none) : (canvas.record command).WithinCapacity := by
  unfold refusal? at h
  split at h
  · rename_i hroom
    rw [WithinCapacity, record, Array.size_push]
    exact hroom
  · cases h

theorem WithinCapacity.draw {canvas : Canvas} (h : canvas.WithinCapacity) (command : Command) :
    (canvas.draw command).WithinCapacity := by
  cases hrefusal : canvas.refusal? with
  | none =>
    rw [draw_of_refusal?_eq_none hrefusal]
    exact withinCapacity_record hrefusal
  | some error =>
    rw [draw_of_refusal?_eq_some hrefusal]
    exact h

end Canvas

/-- The machine never draws beyond the capacity. -/
theorem Reachable.withinCapacity {n : Nat} {m : Machine Canvas}
    (h : Reachable Canvas.WithinCapacity n m) : m.surface.WithinCapacity :=
  h.surface (fun _ hpossible ↦ hpossible) fun _ command hcanvas ↦ hcanvas.draw command

namespace Machine

/-- An update writes to a variable that exists, which always finds room. -/
theorem plan_update_hasRoom {m : Machine σ} {op : Operator} {name right : String} {a : Action}
    (h : m.plan (.update op name right) = .ok a) :
    ∃ value, a = .setVariable name value ∧ m.vars.hasRoom name = true := by
  have hplans := plans_of_plan h
  have hallowed := hplans.allowed
  cases hplans with
  | update => exact ⟨_, rfl, hallowed.1⟩

/-- An update stores under a name that is there, and so never runs out of room. -/
theorem interpret_update_error? [Surface σ] {m : Machine σ} {i : Instruction} {op : Operator}
    {name right : String} (hs : Statement.ofInstruction i = .ok (.update op name right)) :
    (interpret i m).1.error? = none := by
  obtain ⟨perform?, hwith⟩ := exists_interpret i m
  rw [hwith]
  cases heof : i.isEof with
  | true =>
    rw [interpretWith_eof heof]
    rfl
  | false =>
    cases hplan : m.plan (.update op name right) with
    | error fault =>
      rw [interpretWith_refused heof hs hplan]
      rfl
    | ok a =>
      obtain ⟨value, rfl, -⟩ := plan_update_hasRoom hplan
      rw [interpretWith_performed heof hs hplan,
        perform_setVariable (plans_of_plan hplan).allowed]
      rfl

theorem fatal_iff_error? {outcome : Outcome} {error : Error} :
    outcome = .fatal error ↔ outcome.error? = some error := by
  cases outcome <;> simp

/-- Fatal errors come only from the surface and stop everything at once. In every reachable machine
and at every depth of calls, an instruction ends in an error just when the surface refused a command
with it meanwhile. It is the first refusal, the machine stays as it was then but for what the
surface made of the command, and the depth is back to what it was before the instruction. A canvas
refuses only when it holds as many commands as it can. An update never ends in an error, and always
finds room for its variable. -/
theorem fatal_iff_surface_refuses :
    (∀ (σ : Type) [Surface σ] (possible : σ → Prop) (n : Nat) (m : Machine σ) (i : Instruction),
      Reachable possible n m →
        Trace m (events i m) (interpret i m).2 ∧ (interpret i m).2.depth = m.depth ∧
        (∀ error, (interpret i m).1 = .fatal error ↔
          ∃ command, .refusal command error ∈ events i m) ∧
        ∀ error, (interpret i m).1 = .fatal error →
          ∃ (before : List Event) (command : Command) (calls : Nat) (m₁ : Machine σ),
            events i m = before ++ .refusal command error :: List.replicate calls .leave ∧
            Quiet before ∧ Trace m before m₁ ∧ Surface.refusal? m₁.surface command = some error ∧
            (interpret i m).2 =
              { m₁ with surface := Surface.draw m₁.surface command, depth := m.depth }) ∧
    (∀ (n : Nat) (m : Machine Canvas) (i : Instruction) (error : Error),
      Reachable Canvas.WithinCapacity n m → (interpret i m).1 = .fatal error →
        error = ⟨.outOfMemory, "CANVAS COMMAND LIMIT REACHED"⟩ ∧
        (interpret i m).2.surface.commands.size = 65535) ∧
    ∀ (σ : Type) [Surface σ] (m : Machine σ) (i : Instruction) (op : Operator)
      (name right : String), Statement.ofInstruction i = .ok (.update op name right) →
        (∀ error, (interpret i m).1 ≠ .fatal error) ∧
        ∀ a, m.plan (.update op name right) = .ok a →
          ∃ value, a = .setVariable name value ∧ m.vars.hasRoom name = true := by
  refine ⟨?_, ?_, ?_⟩
  · intro σ _ possible n m i hm
    have haccount := accounts_interpret (i := i) hm.fromSource.stepless
    refine ⟨haccount.trace, haccount.depth, fun error ↦ ?_, fun error herror ↦ ?_⟩
    · rw [fatal_iff_error?]
      exact (haccount.stops.refusal_iff error).symm
    · rw [fatal_iff_error?.1 herror] at haccount
      exact haccount.unchanged_after_refusal
  · intro n m i error hm herror
    have haccount := accounts_interpret (i := i) hm.fromSource.stepless
    rw [fatal_iff_error?.1 herror] at haccount
    obtain ⟨_, _, _, m₁, _, _, _, hrefusal, heq⟩ := haccount.unchanged_after_refusal
    -- The canvas at the refusal is the one at the end, which is within its capacity.
    have hsurface : (interpret i m).2.surface = m₁.surface := by
      rw [heq]
      exact Canvas.draw_of_refusal?_eq_some hrefusal _
    rw [← hsurface] at hrefusal
    exact (Canvas.refusal?_eq_some_iff (hm.interpret i).withinCapacity).1 hrefusal
  · intro σ _ m i op name right hs
    refine ⟨fun error herror ↦ ?_, fun a ha ↦ plan_update_hasRoom ha⟩
    rw [fatal_iff_error?, interpret_update_error? hs] at herror
    cases herror

/-- On a full canvas there is an instruction that ends in an error. -/
theorem interpret_fill_of_full {m : Machine Canvas}
    (hfull : m.surface.commands.size = Canvas.capacity) :
    (interpret ⟨"fill", []⟩ m).1 = .fatal Canvas.full := by
  have hrefusal : Surface.refusal? m.surface Command.fill = some Canvas.full := by
    simp [Surface.refusal?, Canvas.refusal?, hfull]
  have hdraw : (drawAll [.fill] m).1 = some Canvas.full := by
    simp [drawAll, hrefusal]
  have hstatement : Statement.ofInstruction ⟨"fill", []⟩ = .ok .fill := rfl
  have hplan : m.plan .fill = .ok (.draw [.fill]) := rfl
  obtain ⟨perform?, hwith⟩ := exists_interpret ⟨"fill", []⟩ m
  rw [hwith, interpretWith_performed rfl hstatement hplan, perform, fatal_iff_error?,
    executedUnless_error?, hdraw]

/-- A machine in a recorded function, with a canvas that is full. -/
def onFullCanvas : Machine Canvas :=
  { initial "fill" ⟨640, 480, Array.replicate Canvas.capacity .fill⟩ 7 with depth := 1 }

/-- Drawing on a full canvas ends the run, one call deep. -/
theorem fill_onFullCanvas_fatal :
    Reachable Canvas.WithinCapacity 1 onFullCanvas ∧
      (interpret ⟨"fill", []⟩ onFullCanvas).1 = .fatal Canvas.full ∧
      (∃ command, .refusal command Canvas.full ∈ events ⟨"fill", []⟩ onFullCanvas) ∧
      (interpret ⟨"fill", []⟩ onFullCanvas).2.surface.commands.size = 65535 := by
  have hfull : onFullCanvas.surface.commands.size = Canvas.capacity := Array.size_replicate
  have hfatal := interpret_fill_of_full hfull
  have hpossible : onFullCanvas.surface.WithinCapacity := Nat.le_of_eq hfull
  have hreachable : Reachable Canvas.WithinCapacity 1 onFullCanvas :=
    .enter (.initial "fill" hpossible 7) (by decide)
  obtain ⟨hsurface, hcanvas, -⟩ := fatal_iff_surface_refuses
  obtain ⟨-, -, hiff, -⟩ := hsurface Canvas _ 1 onFullCanvas ⟨"fill", []⟩ hreachable
  exact ⟨hreachable, hfatal, (hiff _).1 hfatal, (hcanvas _ _ _ _ hreachable hfatal).2⟩

end Machine

end PenMachine
