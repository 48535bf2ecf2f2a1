import PenMachine.Canvas.Basic
import PenMachine.Proofs.Reachable

/-!
# Calling is inlining

A call of a recorded function does what its instructions do one after another, up to and including
the first `ret` (`Machine.call_inlines`). The body runs one call deeper than the instructions would
run in place, but depth makes no difference except where the limit stops a call: the two runs have
the same events, and events do the same to machines that differ in depth alone.
-/

namespace PenMachine

variable {σ : Type}

/-- Events do the same to machines that differ in depth alone. -/
theorem Trace.eq_of_depth [Surface σ] {m r r' : Machine σ} {depth : Nat} {events : List Event}
    (h : Trace m events r) (h' : Trace { m with depth } events r') :
    r' = { r with depth := r'.depth } := by
  induction h generalizing depth with
  | nil =>
    cases h'
    rfl
  | @cons m r e events _ _ ih =>
    cases h' with
    | cons _ rest =>
      have happly : e.apply { m with depth } =
          { e.apply m with depth := (e.apply { m with depth }).depth } := by
        cases e <;> rfl
      rw [happly] at rest
      exact ih rest

namespace Machine

/-- A function that has recorded instructions takes no arguments and starts no function. -/
theorem FromSource.recorded {m : Machine σ} (h : m.FromSource) {name : String} {f : Function}
    {body : List Instruction} (hf : m.functions[name]? = some f) (hbody : f.body = .recorded body) :
    f.arity = .exactly 0 ∧ ∀ i ∈ body, i.is "func" = false := by
  obtain ⟨⟨argNames, rfl⟩, hplain⟩ := h.eq_recorded hf hbody
  exact ⟨rfl, fun i hi ↦ (hplain i hi).1⟩

/-- Instructions up to and including the first `ret`. -/
def throughReturn : List Instruction → List Instruction
  | [] => []
  | i :: rest => if i.is "ret" then [i] else i :: throughReturn rest

/-- Nothing of a body happens behind its first `ret`. -/
theorem bodyEvents_of_ret {runner : Runner σ} {i : Instruction} (h : i.is "ret" = true)
    (rest : List Instruction) (m : Machine σ) :
    bodyEvents runner (i :: rest) m = runner.events i m := by
  rw [bodyEvents]
  rcases runner.run i m with ⟨outcome, m₁⟩
  cases outcome <;> simp [h]

/-- Carries out instructions one after another. Only an error of the surface ends the run. -/
def inSequence [Surface σ] : List Instruction → Machine σ → Option Error × Machine σ
  | [], m => (none, m)
  | i :: rest, m =>
    match interpret i m with
    | (.fatal error, m) => (some error, m)
    | (_, m) => inSequence rest m

variable [Surface σ]

theorem depth_inSequence (instructions : List Instruction) {m : Machine σ} (hm : m.Stepless) :
    (inSequence instructions m).2.depth = m.depth := by
  induction instructions generalizing m with
  | nil => rfl
  | cons i rest ih =>
    have haccount := accounts_interpret (i := i) hm
    rw [inSequence]
    rcases hrun : interpret i m with ⟨outcome, m₁⟩
    rw [hrun] at haccount
    cases outcome with
    | fatal error => exact haccount.depth
    | eof | executed | failed => exact (ih (hm.trace haccount.trace)).trans haccount.depth

/-- An instruction does the same one call deeper, unless it runs out of room there. -/
theorem interpretWithin_deeper {step : Machine σ → Outcome × Machine σ} {room : Nat}
    {i : Instruction} {m : Machine σ} (hroom : room + 1 = maxDepth - m.depth) (hm : m.KeepsText)
    (hi : i.is "func" = false)
    (hdeep : ∀ name, .overflow name ∉ eventsWithin step room i { m with depth := m.depth + 1 }) :
    interpretWithin step room i { m with depth := m.depth + 1 } =
      ((interpret i m).1, { (interpret i m).2 with depth := m.depth + 1 }) := by
  have hagree : Agree { m with depth := m.depth + 1 } m := (Agree.refl m).elsewhere
  have halike : Alike { m with depth := m.depth + 1 }
      (eventsWithin step room i { m with depth := m.depth + 1 }) (events i m)
      (interpretWithin step room i { m with depth := m.depth + 1 }) (interpret i m) :=
    alike_interpretWithin (by omega) hagree hm hi (.inr hdeep)
  have hinner := accounts_interpretWithin (i := i) (m := { m with depth := m.depth + 1 }) step room
    (by simp only; omega) hm.stepless
  have houter := accounts_interpret (i := i) hm.stepless
  rw [halike.events] at houter
  have hstate := houter.trace.eq_of_depth hinner.trace
  rw [hinner.depth] at hstate
  exact Prod.ext halike.outcome.symm hstate

/-- Only a `func` of the program changes the table of functions. -/
theorem functions_interpret {i : Instruction} {m : Machine σ} (hm : m.KeepsText)
    (hi : i.is "func" = false) : (interpret i m).2.functions = m.functions := by
  have halike : Alike m (events i m) (events i m) (interpret i m) (interpret i m) :=
    alike_interpretWithin (Nat.le_refl _) (.refl m) hm hi (.inl rfl)
  exact halike.functions

/-- The body of a function does the same as its instructions one after another. -/
theorem runBody_eq_inSequence {step : Machine σ → Outcome × Machine σ} {room : Nat}
    {body : List Instruction} (hbody : ∀ i ∈ body, i.is "func" = false) {m : Machine σ}
    (hroom : room + 1 = maxDepth - m.depth) (hm : m.KeepsText)
    (hdeep : ∀ name, .overflow name ∉ bodyEvents ⟨interpretWithin step room, eventsWithin step room⟩
      body { m with depth := m.depth + 1 }) :
    runBody (interpretWithin step room) body { m with depth := m.depth + 1 } =
      ((inSequence (throughReturn body) m).1,
        { (inSequence (throughReturn body) m).2 with depth := m.depth + 1 }) := by
  induction body generalizing m with
  | nil => rfl
  | cons j rest ih =>
    have hfunc := hbody j (by simp)
    have hdepth := (accounts_interpret (i := j) hm.stepless).depth
    have hfunctions := functions_interpret hm hfunc
    rw [bodyEvents] at hdeep
    have hj := interpretWithin_deeper hroom hm hfunc
      fun name hmem ↦ hdeep name (List.mem_append_left _ hmem)
    rcases hrun : interpret j m with ⟨outcome, m₁⟩
    rw [hrun] at hj hdepth hfunctions
    simp only [hj] at hdeep
    rw [runBody, hj]
    by_cases hret : j.is "ret"
    · simp only [throughReturn, hret, if_true, inSequence, hrun]
      cases outcome <;> rfl
    · have hrest : throughReturn (j :: rest) = j :: throughReturn rest := by
        simp [throughReturn, hret]
      rw [hrest, inSequence, hrun]
      cases outcome with
      | fatal error => rfl
      | eof | executed | failed =>
        simp only [hret, Bool.false_eq_true, if_false] at hdeep ⊢
        have hsame : m₁.depth = m.depth := hdepth
        rw [← hsame] at hdeep hroom ⊢
        exact ih (fun i hi ↦ hbody i (List.mem_cons_of_mem j hi)) hroom
          (hm.of_functions hfunctions) fun name hmem ↦ hdeep name (List.mem_append_right _ hmem)

/-- A call of a recorded function that nowhere runs out of room for calls does what the function's
instructions do one after another in its place, up to and including the first `ret`: the same
machine in the end, text and messages included, and the same error if there is one. -/
theorem call_inlines {possible : σ → Prop} {n : Nat} {m : Machine σ}
    (hm : Reachable possible n m) {i : Instruction} {name : String} (hcall : i.is "call" = true)
    (hparams : i.params = [name]) {f : Function} {body : List Instruction}
    (hf : m.functions[name]? = some f) (hbody : f.body = .recorded body)
    (hroom : ∀ g, .overflow g ∉ events i m) :
    interpret i m = executedUnless i (inSequence (throughReturn body) m) := by
  obtain ⟨harity, hplain⟩ := hm.fromSource.recorded hf hbody
  have heof : i.isEof = false := Instruction.isEof_of_is hcall (by decide)
  have hstatement := Statement.ofInstruction_eq_call_iff.2 ⟨hcall, hparams⟩
  have hplan : m.plan (.call name []) = .ok (.invoke f []) := plan_call hf (by rw [harity]; rfl)
  unfold events at hroom
  unfold interpret
  cases hleft : maxDepth - m.depth with
  | zero =>
    -- Without room for a single call this one is refused.
    rw [hleft, eventsWithin, eventsWith_performed heof hstatement hplan, performEvents,
      invokeEvents, hbody] at hroom
    exact absurd (by simp) (hroom f.name)
  | succ room =>
    rw [hleft, eventsWithin, eventsWith_performed heof hstatement hplan, performEvents,
      invokeEvents, hbody] at hroom
    have hrun : runBody (interpretWithin (stepWithin m.unread) room) body
        { m with depth := m.depth + 1 } =
          ((inSequence (throughReturn body) m).1,
            { (inSequence (throughReturn body) m).2 with depth := m.depth + 1 }) :=
      runBody_eq_inSequence hplain hleft.symm hm.fromSource.keepsText
        fun g hmem ↦ hroom g (by simp [hmem])
    have hdepth := depth_inSequence (throughReturn body) hm.fromSource.stepless
    rw [interpretWithin, interpretWith_performed heof hstatement hplan, perform, invoke, hbody]
    simp only [hrun]
    rw [← hdepth]

/-- A machine that has recorded a function with an instruction behind its `ret`. -/
def withFunction : Machine Canvas :=
  (fresh "").define
    (.recorded "f" [] [⟨"ret", ["2"]⟩, ⟨"set", ["$.a", "1"]⟩])

theorem reachable_withFunction : Reachable (fun _ : Canvas ↦ True) 0 withFunction := by
  have hbody : recordBody "ret 2\nset $.a 1".toList [] =
      .complete [⟨"ret", ["2"]⟩, ⟨"set", ["$.a", "1"]⟩] [] := by
    decide +kernel
  rw [withFunction, ← interpret_func_fresh rfl hbody]
  exact .interpret (.initial _ trivial _) _

theorem overflow_notMem_events_ret {step : Machine σ → Outcome × Machine σ} {room : Nat}
    {m : Machine σ} (g : String) : .overflow g ∉ eventsWithin step room ⟨"ret", ["2"]⟩ m := by
  have hstatement : Statement.ofInstruction ⟨"ret", ["2"]⟩ = .ok (.ret "2") := rfl
  have hwith : ∀ deeper, .overflow g ∉ eventsWith deeper ⟨"ret", ["2"]⟩ m := by
    intro deeper
    cases hplan : m.plan (.ret "2") with
    | error fault =>
      rw [eventsWith_refused rfl hstatement hplan]
      simp [refusalEvents]
    | ok a =>
      rw [eventsWith_performed rfl hstatement hplan]
      cases plans_of_plan hplan
      simp [performEvents]
  cases room with
  | zero => exact hwith _
  | succ room => exact hwith _

theorem functions_withFunction : withFunction.functions["f"]? =
    some (.recorded "f" [] [⟨"ret", ["2"]⟩, ⟨"set", ["$.a", "1"]⟩]) :=
  getElem?_define_self (fresh "") _

theorem overflow_notMem_events_withFunction (g : String) :
    .overflow g ∉ events ⟨"call", ["f"]⟩ withFunction := by
  have hstatement : Statement.ofInstruction ⟨"call", ["f"]⟩ = .ok (.call "f" []) := rfl
  have hplan := plan_call functions_withFunction rfl
  have hroom : maxDepth - withFunction.depth = 255 + 1 := rfl
  rw [events, hroom, eventsWithin, eventsWith_performed rfl hstatement hplan, performEvents,
    invokeEvents, Function.recorded]
  simp only [bodyEvents_of_ret (i := ⟨"ret", ["2"]⟩) rfl, List.mem_cons, List.mem_append]
  simp [overflow_notMem_events_ret]

/-- The call does what the `ret` does in its place. -/
theorem call_withFunction_inlines :
    Reachable (fun _ : Canvas ↦ True) 0 withFunction ∧
      interpret ⟨"call", ["f"]⟩ withFunction =
        executedUnless ⟨"call", ["f"]⟩ (inSequence [⟨"ret", ["2"]⟩] withFunction) := by
  have hcall := call_inlines reachable_withFunction (i := ⟨"call", ["f"]⟩) rfl rfl
    functions_withFunction rfl overflow_notMem_events_withFunction
  exact ⟨reachable_withFunction, hcall⟩

end Machine

end PenMachine
