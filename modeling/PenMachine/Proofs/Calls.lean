import PenMachine.Proofs.EndOfText
import PenMachine.Proofs.Session

/-!
# Calls leave program and functions alone

Functions are recorded from the text of the program, and recording stops at the next `func` and at
the end of the program. So no recorded instruction starts a function or ends the program, and a
call, however deep it goes, neither reads on in the text nor changes the table of functions
(`Machine.calls_leave_text_and_functions`). This needs that the two ways of telling a `func`, by
its name up to ASCII case when it is recorded and by lower case when it is carried out, never
disagree.
-/

namespace PenMachine

variable {σ : Type}

namespace Instruction

/-- Whether an instruction is carried out as a call, with or without a condition. -/
def Calls (i : Instruction) : Prop :=
  i.operation? = some .call ∨ ∃ condition, i.operation? = some (.callWhen condition)

theorem Calls.not_func {i : Instruction} (h : i.Calls) : i.is "func" = false := by
  rw [← Bool.not_eq_true, ← operation?_eq_func_iff]
  intro hfunc
  rcases h with hcall | ⟨condition, hcall⟩
  · rw [hfunc] at hcall
    cases hcall
  · rw [hfunc] at hcall
    cases hcall

end Instruction

/-- Whether an event neither moves on in the text nor records a function. -/
def Event.KeepsText : Event → Prop
  | .record .. | .advance _ => False
  | _ => True

/-- Events that leave the text alone leave it and the functions as they were. -/
theorem Trace.keepsText [Surface σ] {m m' : Machine σ} {events : List Event}
    (h : Trace m events m') (hevents : ∀ e ∈ events, e.KeepsText) :
    m'.unread = m.unread ∧ m'.functions = m.functions := by
  induction h with
  | nil => exact ⟨rfl, rfl⟩
  | @cons m m' e events _ _ ih =>
    obtain ⟨hunread, hfunctions⟩ := ih fun e he ↦ hevents e (List.mem_cons_of_mem _ he)
    have he := hevents e (by simp)
    rw [hunread, hfunctions]
    cases e with
    | record | advance => exact he.elim
    | _ => exact ⟨rfl, rfl⟩

namespace Machine

/-- Whether whatever instructions other than `func` are run this way leave text and functions
alone. -/
def Runner.KeepsText (runner : Runner σ) : Prop :=
  ∀ (j : Instruction) (m : Machine σ), m.KeepsText → j.is "func" = false →
    (∀ e ∈ runner.events j m, e.KeepsText) ∧ (runner.run j m).2.KeepsText

section Events

variable {deeper : Option (Runner σ)} {i : Instruction} {m : Machine σ}

theorem keepsText_refusalEvents (operation : String) (fault : Fault) :
    ∀ e ∈ refusalEvents operation fault, e.KeepsText := by
  simp [refusalEvents, Event.KeepsText]

theorem keepsText_drawEvents [Surface σ] (commands : List Command) (surface : σ) :
    ∀ e ∈ drawEvents commands surface, e.KeepsText := by
  intro e he
  rcases draws_of_mem_drawEvents he with ⟨command, rfl⟩ | ⟨command, error, rfl⟩
  · trivial
  · trivial

theorem keepsText_bodyEvents {runner : Runner σ} (hrunner : runner.KeepsText)
    {body : List Instruction} (hbody : ∀ j ∈ body, j.is "func" = false) (hm : m.KeepsText) :
    ∀ e ∈ bodyEvents runner body m, e.KeepsText := by
  induction body generalizing m with
  | nil => simp [bodyEvents]
  | cons j rest ih =>
    obtain ⟨hevents, hkeeps⟩ := hrunner j m hm (hbody j (by simp))
    have hrest := ih (fun j hj ↦ hbody j (List.mem_cons_of_mem _ hj)) hkeeps
    intro e he
    rw [bodyEvents, List.mem_append] at he
    rcases he with he | he
    · exact hevents e he
    · rcases hrun : runner.run j m with ⟨outcome, m₁⟩
      rw [hrun] at he hrest
      cases outcome with
      | fatal error => simp at he
      | eof | executed | failed =>
        by_cases hret : j.is "ret"
        · simp [hret] at he
        · simp only [hret, Bool.false_eq_true, if_false] at he
          exact hrest e he

theorem keepsText_invokeEvents (hdeeper : ∀ runner ∈ deeper, runner.KeepsText)
    (hm : m.KeepsText) {f : Function} {args : List Number}
    (hf : (Action.invoke f args).Allowed m) :
    ∀ e ∈ invokeEvents deeper i f args m, e.KeepsText := by
  obtain ⟨name, hname, -⟩ := hf
  have hkeeps := hm name f hname
  unfold invokeEvents
  cases hbody : f.body with
  | builtin routine => cases routine <;> simp [builtinEvents, Event.KeepsText]
  | host routine => exact absurd hbody (hm.ownRoutines name f hname routine)
  | recorded body =>
    rw [hbody] at hkeeps
    cases deeper with
    | none => simpa [Event.KeepsText] using keepsText_refusalEvents _ _
    | some runner =>
      have hbody := keepsText_bodyEvents (m := { m with depth := m.depth + 1 })
        (hdeeper runner rfl) hkeeps hm
      intro e he
      simp only [List.mem_cons, List.mem_append, List.not_mem_nil, or_false] at he
      rcases he with (rfl | he) | rfl
      · trivial
      · exact hbody e he
      · trivial

variable [Surface σ]

theorem keepsText_performEvents (hdeeper : ∀ runner ∈ deeper, runner.KeepsText)
    (hm : m.KeepsText) {a : Action} (ha : a.Allowed m)
    (hrecord : ∀ name argNames, a ≠ .record name argNames) :
    ∀ e ∈ performEvents deeper i m a, e.KeepsText := by
  cases a with
  | skip | setRegister | setVariable | removeVariable | log =>
    simp [performEvents, Event.KeepsText]
  | record name argNames => exact absurd rfl (hrecord name argNames)
  | invoke f args => exact keepsText_invokeEvents hdeeper hm ha
  | draw commands => exact keepsText_drawEvents commands m.surface

/-- An instruction other than `func` comes to no action that reads on. -/
theorem keepsText_eventsWith (hdeeper : ∀ runner ∈ deeper, runner.KeepsText)
    (hm : m.KeepsText) (hi : i.is "func" = false) :
    ∀ e ∈ eventsWith deeper i m, e.KeepsText := by
  have hbegin : ∀ {events : List Event}, (∀ e ∈ events, e.KeepsText) →
      ∀ e ∈ Event.begin i :: events, e.KeepsText := by
    intro events hevents
    exact List.forall_mem_cons.2 ⟨trivial, hevents⟩
  cases heof : i.isEof with
  | true =>
    rw [eventsWith_eof heof]
    exact hbegin (by simp)
  | false =>
    cases hs : Statement.ofInstruction i with
    | error rejection =>
      rw [eventsWith_rejected heof hs]
      exact hbegin (by simp [Event.KeepsText])
    | ok s =>
      cases hplan : m.plan s with
      | error fault =>
        rw [eventsWith_refused heof hs hplan]
        exact hbegin (keepsText_refusalEvents _ _)
      | ok a =>
        rw [eventsWith_performed heof hs hplan]
        refine hbegin (keepsText_performEvents hdeeper hm (plans_of_plan hplan).allowed ?_)
        rintro name argNames rfl
        exact plan_ne_record hs hi name argNames hplan

theorem interpretWithin_keepsText (step : Machine σ → Outcome × Machine σ) (room : Nat)
    (hm : m.KeepsText) (hi : i.is "func" = false) :
    (interpretWithin step room i m).2.unread = m.unread ∧
      (interpretWithin step room i m).2.functions = m.functions := by
  have halike : Alike m _ _ (interpretWithin step room i m) (interpretWithin step room i m) :=
    alike_interpretWithin (Nat.le_refl room) (.refl m) hm hi (.inl rfl)
  exact ⟨halike.unread, halike.functions⟩

/-- An instruction that is no `func` leaves text and functions alone, and so does everything that it
calls. -/
theorem keepsText_eventsWithin (step : Machine σ → Outcome × Machine σ) (room : Nat)
    (hm : m.KeepsText) (hi : i.is "func" = false) :
    ∀ e ∈ eventsWithin step room i m, e.KeepsText := by
  induction room generalizing i m with
  | zero => exact keepsText_eventsWith (by simp) hm hi
  | succ room ih =>
    refine keepsText_eventsWith ?_ hm hi
    rintro runner ⟨⟩ j m₁ hm₁ hj
    have hfunctions := (interpretWithin_keepsText step room hm₁ hj).2
    exact ⟨ih hm₁ hj, hm₁.of_functions hfunctions⟩

/-- A step whose instruction is no `func` reads that instruction and nothing else. -/
theorem step_keepsText (hm : m.KeepsText) (hi : (Source.next m.unread).1.is "func" = false) :
    m.step.2.unread = (Source.next m.unread).2 ∧ m.step.2.functions = m.functions := by
  obtain ⟨step, hstep⟩ := exists_step m
  have hread : KeepsText { m with unread := (Source.next m.unread).2 } := hm
  rw [hstep]
  exact interpretWithin_keepsText step _ hread hi

end Events

/-- Recorded instructions neither start a function nor end the program. -/
theorem FromSource.plain {m : Machine σ} (h : m.FromSource) {name : String} {f : Function}
    {body : List Instruction} (hf : m.functions[name]? = some f) (hbody : f.body = .recorded body)
    {i : Instruction} (hi : i ∈ body) : i.operation? ≠ some .func ∧ i.isEof = false := by
  obtain ⟨hfunc, heof⟩ := (h.eq_recorded hf hbody).2 i hi
  refine ⟨fun hoperation ↦ ?_, heof⟩
  rw [Instruction.operation?_eq_func_iff.1 hoperation] at hfunc
  cases hfunc

/-- In every session no recorded body holds an instruction that is carried out as `func` or ends the
program. A call, with or without a condition, leaves the text and all functions as they were,
whatever its outcome. They do not change meanwhile either, at any moment and at any depth of the
calls that it makes. When the call stands in the program, what is left of the text is what comes
after it. -/
theorem calls_leave_text_and_functions [Surface σ] {measured : σ} {m : Machine σ}
    (h : Session measured m) :
    (∀ (name : String) (f : Function) (body : List Instruction), m.functions[name]? = some f →
      f.body = .recorded body → ∀ i ∈ body, i.operation? ≠ some .func ∧ i.isEof = false) ∧
    (∀ i : Instruction, i.Calls →
      (interpret i m).2.unread = m.unread ∧ (interpret i m).2.functions = m.functions ∧
      Trace m (events i m) (interpret i m).2 ∧
      ∀ before moment, before <+: events i m → Trace m before moment →
        moment.unread = m.unread ∧ moment.functions = m.functions) ∧
    ((Source.next m.unread).1.Calls →
      m.step.2.unread = (Source.next m.unread).2 ∧ m.step.2.functions = m.functions) := by
  have hkeeps := h.fromSource.keepsText
  refine ⟨fun name f body hf hbody i hi ↦ h.fromSource.plain hf hbody hi, fun i hcalls ↦ ?_,
    fun hcalls ↦ step_keepsText hkeeps hcalls.not_func⟩
  have haccount := accounts_interpret (i := i) hkeeps.stepless
  have hevents := keepsText_eventsWithin (stepWithin m.unread) (maxDepth - m.depth) hkeeps
    hcalls.not_func
  obtain ⟨hunread, hfunctions⟩ := haccount.trace.keepsText hevents
  refine ⟨hunread, hfunctions, haccount.trace, fun before moment hbefore hmoment ↦ ?_⟩
  exact hmoment.keepsText fun e he ↦ hevents e (hbefore.subset he)

/-- A machine at a program with a function that calls itself. -/
def beforeRecursion : Machine Canvas :=
  fresh "func f\ncall f\nFunc End\nfill"

theorem step_beforeRecursion : ∃ rest, Source.Reads rest [⟨"fill", []⟩] ∧
    beforeRecursion.step.2 =
      { beforeRecursion with unread := rest }.define (.recorded "f" [] [⟨"call", ["f"]⟩]) := by
  have hall : LineGrammar.instructions beforeRecursion.unread =
      [⟨"func", ["f"]⟩, ⟨"call", ["f"]⟩, ⟨"Func", ["End"]⟩, ⟨"fill", []⟩] := by
    decide
  have hplain : ∀ i ∈ LineGrammar.instructions beforeRecursion.unread, i.isEof = false := by
    rw [hall]
    decide
  have hreads := Source.reads_instructions hplain
  rw [hall] at hreads
  have hcut : cutBody [⟨"call", ["f"]⟩, ⟨"Func", ["End"]⟩, ⟨"fill", []⟩] =
      (some [⟨"call", ["f"]⟩], [⟨"fill", []⟩]) := by
    decide
  obtain ⟨rest, hrest, hstep⟩ := step_func hreads rfl hcut
  exact ⟨rest, hrest, by rw [hstep]⟩

/-- The function calls itself until it is too deep, and `fill` is still ahead. -/
theorem call_leaves_recursion :
    Session (Canvas.empty 640 480) beforeRecursion.step.2 ∧
      beforeRecursion.step.2.functions["f"]? = some (.recorded "f" [] [⟨"call", ["f"]⟩]) ∧
      (interpret ⟨"CALL", ["f"]⟩ beforeRecursion.step.2).2.functions =
        beforeRecursion.step.2.functions ∧
      Source.Reads (interpret ⟨"CALL", ["f"]⟩ beforeRecursion.step.2).2.unread
        [⟨"fill", []⟩] := by
  have hsession : Session (Canvas.empty 640 480) beforeRecursion.step.2 :=
    .serve (.start _ _ 7) .step
  have hcalls : Instruction.Calls ⟨"CALL", ["f"]⟩ := .inl (by decide)
  obtain ⟨-, hcall, -⟩ := calls_leave_text_and_functions hsession
  obtain ⟨hunread, hfunctions, -⟩ := hcall _ hcalls
  obtain ⟨rest, hrest, hstep⟩ := step_beforeRecursion
  refine ⟨hsession, ?_, hfunctions, ?_⟩
  · rw [hstep]
    exact getElem?_define_self _ _
  · rw [hunread, hstep]
    exact hrest

end Machine

end PenMachine
