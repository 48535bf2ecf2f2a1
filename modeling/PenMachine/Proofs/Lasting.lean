import PenMachine.Proofs.Trace

/-!
# Relations that last

Some relations between a machine and what becomes of it need to be looked at one change at a time
only: that the text is read on in, that the variables stay in order, or that the canvas does. A
relation of this kind (`Machine.Lasting`) holds along instructions, bodies and whole programs, and
no matter what functions the embedding program has added. Its routines change nothing themselves.
They answer with a number or have steps taken, and the relation holds along each of these.
-/

namespace PenMachine

/-- Whether an event neither moves on in the text nor asks the surface for anything. -/
def Event.IsInner : Event → Prop
  | .advance _ | .draw _ | .refusal _ _ => False
  | _ => True

namespace Machine

variable {σ : Type} [Surface σ]

/-- A relation to what becomes of a machine that holds along every single change. Reading and
drawing are set apart from the other events: the text goes on only where instructions end, and what
one instruction draws is drawn as a whole. -/
structure Lasting (R : Machine σ → Machine σ → Prop) : Prop where
  refl (m : Machine σ) : R m m
  trans {m m₁ m₂ : Machine σ} (h₁ : R m m₁) (h₂ : R m₁ m₂) : R m m₂
  event {m : Machine σ} {e : Event} (allowed : e.Allowed m) (inner : e.IsInner) : R m (e.apply m)
  draw {m : Machine σ} {s : Statement} {commands : List Command}
    (planned : m.plan s = .ok (.draw commands)) : R m (drawAll commands m).2
  next (m : Machine σ) : R m { m with unread := (Source.next m.unread).2 }
  nested {m : Machine σ} {rest : List Char} (h : recordBody m.unread [] = .nested rest) :
    R m { m with unread := rest }
  depth (m : Machine σ) (depth : Nat) : R m { m with depth }

/-- Whether a relation holds along something that is done to machines. -/
def Along {α : Type} (R : Machine σ → Machine σ → Prop) (run : Machine σ → α × Machine σ) : Prop :=
  ∀ m, R m (run m).2

namespace Lasting

variable {R : Machine σ → Machine σ → Prop} {step : Machine σ → Outcome × Machine σ}
  {deeper : Option (Instruction → Machine σ → Outcome × Machine σ)}

theorem trace (h : Lasting R) {m m' : Machine σ} {events : List Event} (ht : Trace m events m')
    (inner : ∀ e ∈ events, e.IsInner) : R m m' := by
  induction ht with
  | nil m => exact h.refl m
  | cons allowed rest ih =>
    obtain ⟨hfirst, hothers⟩ := List.forall_mem_cons.1 inner
    exact h.trans (h.event allowed hfirst) (ih hothers)

theorem refuse (h : Lasting R) (m : Machine σ) (operation : String) (fault : Fault) :
    R m (m.refuse operation fault) :=
  h.trace (accounts_refuse operation fault).trace (by simp [refusalEvents, Event.IsInner])

theorem ret (h : Lasting R) (m : Machine σ) (value : Number) : R m (m.setRegister .ret value) :=
  h.event (e := .setRegister .ret value) (.inl rfl) trivial

/-- A routine of the embedding program does nothing itself, so its steps decide. -/
theorem along_runHost (h : Lasting R) (hstep : Along R step) (routine : HostRoutine) :
    Along R (runHost step routine) := by
  induction routine with
  | done value => exact h.refl
  | step resume ih =>
    intro m
    rw [runHost]
    exact h.trans (hstep m) (ih (step m).1 (step m).2)

theorem along_runBody (h : Lasting R) {perform : Instruction → Machine σ → Outcome × Machine σ}
    (hperform : ∀ i, Along R (perform i)) (body : List Instruction) :
    Along R (runBody perform body) := by
  induction body with
  | nil => exact h.refl
  | cons i rest ih =>
    intro m
    have hfirst := hperform i m
    rw [runBody]
    rcases houtcome : perform i m with ⟨outcome, m₁⟩
    rw [houtcome] at hfirst
    have hrest : R m (runBody perform rest m₁).2 := h.trans hfirst (ih m₁)
    cases outcome with
    | fatal error => exact hfirst
    | eof | executed | failed =>
      simp only
      split
      · exact hfirst
      · exact hrest

/-- Entering and leaving a call are changes of the depth. -/
theorem along_invoke (h : Lasting R) (hstep : Along R step)
    (hdeeper : ∀ perform ∈ deeper, ∀ i, Along R (perform i)) (i : Instruction) (f : Function)
    (args : List Number) : Along R (invoke step deeper i f args) := by
  intro m
  rw [invoke]
  cases f.body with
  | builtin routine =>
    have hbuiltin : R m (m.runBuiltin routine args).2 := by
      refine h.trace (accounts_builtin routine args).trace ?_
      cases routine <;> simp [builtinEvents, Event.IsInner]
    exact h.trans hbuiltin (h.ret _ _)
  | host routine => exact h.trans (h.along_runHost hstep (routine args) m) (h.ret _ _)
  | recorded body =>
    cases deeper with
    | none => exact h.refuse m _ _
    | some perform =>
      have hbody := h.along_runBody (hdeeper perform rfl) body { m with depth := m.depth + 1 }
      simp only [executedUnless_snd]
      exact h.trans (h.depth m _) (h.trans hbody (h.depth _ _))

/-- Drawing takes the plan, since only planned commands are drawn. -/
theorem along_perform (h : Lasting R) (hstep : Along R step)
    (hdeeper : ∀ perform ∈ deeper, ∀ i, Along R (perform i)) (i : Instruction) {m : Machine σ}
    {s : Statement} {a : Action} (hplan : m.plan s = .ok a) :
    R m (perform step deeper i m a).2 := by
  have allowed := (plans_of_plan hplan).allowed
  cases a with
  | skip => exact h.refl m
  | setRegister r value => exact h.event (e := .setRegister r value) allowed trivial
  | setVariable name value =>
    rw [perform_setVariable allowed]
    exact h.event (e := .setVariable name value) allowed trivial
  | removeVariable name => exact h.event (e := .removeVariable name) allowed trivial
  | log lines => exact h.trace (accounts_log lines).trace (by simp [Event.IsInner])
  | draw commands =>
    rw [perform, executedUnless_snd]
    exact h.draw hplan
  | record name argNames =>
    rw [perform]
    cases hbody : recordBody m.unread [] with
    | complete body rest => exact h.event (e := .record name argNames body rest) hbody trivial
    | nested rest => exact h.trans (h.nested hbody) (h.refuse _ _ _)
  | invoke f args => exact h.along_invoke hstep hdeeper i f args m

theorem along_interpretWith (h : Lasting R) (hstep : Along R step)
    (hdeeper : ∀ perform ∈ deeper, ∀ i, Along R (perform i)) (i : Instruction) :
    Along R (interpretWith step deeper i) := by
  intro m
  cases heof : i.isEof with
  | true =>
    rw [interpretWith_eof heof]
    exact h.refl m
  | false =>
    cases hs : Statement.ofInstruction i with
    | error rejection =>
      rw [interpretWith_rejected heof hs]
      exact h.event (e := .say .warn rejection.text) trivial trivial
    | ok s =>
      cases hplan : m.plan s with
      | error fault =>
        rw [interpretWith_refused heof hs hplan]
        exact h.refuse m _ _
      | ok a =>
        rw [interpretWith_performed heof hs hplan]
        exact h.along_perform hstep hdeeper i hplan

/-- The induction is on the room for calls. -/
theorem along_interpretWithin (h : Lasting R) (hstep : Along R step) (room : Nat)
    (i : Instruction) : Along R (interpretWithin step room i) := by
  induction room generalizing i with
  | zero => exact h.along_interpretWith hstep (by simp) i
  | succ room ih =>
    refine h.along_interpretWith hstep ?_ i
    rintro perform ⟨⟩
    exact ih

/-- The induction is on a text at least as long as what is unread, as that of a step is. -/
theorem along_stepWithin (h : Lasting R) (text : List Char) : Along R (stepWithin text) := by
  induction text with
  | nil => exact h.refl
  | cons c shorter ih =>
    intro m
    exact h.trans (h.next m) (h.along_interpretWithin ih _ _ _)

theorem along_step (h : Lasting R) : Along R Machine.step :=
  fun m ↦ h.along_stepWithin m.unread m

theorem along_interpret (h : Lasting R) (i : Instruction) : Along R (interpret i) :=
  fun m ↦ h.along_interpretWithin (h.along_stepWithin m.unread) _ i m

theorem along_runWithin (h : Lasting R) (length count : Nat) :
    Along R (runWithin length count) := by
  induction length generalizing count with
  | zero => exact h.refl
  | succ length ih =>
    intro m
    have hstep := h.along_step m
    rw [runWithin]
    rcases houtcome : m.step with ⟨outcome, m₁⟩
    rw [houtcome] at hstep
    cases outcome with
    | eof | fatal => exact hstep
    | executed | failed => exact h.trans hstep (ih (count + 1) m₁)

end Lasting

end Machine

end PenMachine
