import PenMachine.Canvas.Basic
import PenMachine.Proofs.Names
import PenMachine.Proofs.Trace

/-!
# Failing is atomic

An instruction that fails has only reported why. `Machine.Failure` lists the four ways to fail: the
instruction is no statement, a check refuses the statement, a function to be recorded holds
another, or a call would go too deep. None of them comes after a change, and none of them after a
part of a called function has run, so a failure leaves the machine as it was but for what has been
said and, under `func`, for the text that recording has read.
-/

namespace PenMachine

variable {σ : Type}

/-- Whether an event says something, moves on in the text or stops a call from going too deep, and
does nothing else. Starting a body or a routine is none of these. -/
def Event.IsReport : Event → Prop
  | .say _ _ | .advance _ | .overflow _ => True
  | _ => False

namespace Machine

variable {step : Machine σ → Outcome × Machine σ} {deeper : Option (Runner σ)} {i : Instruction}
  {m m' : Machine σ}

/-- The four ways to fail, with what happens then. -/
inductive Failure (i : Instruction) (m : Machine σ) : List Event → Machine σ → Prop where
  | rejected (rejection : Rejection) :
    Failure i m [.say .warn rejection.text] (m.say .warn rejection.text)
  | refused (fault : Fault) :
    Failure i m (refusalEvents i.operation fault) (m.refuse i.operation fault)
  | nested (rest : List Char) (func : i.is "func" = true) :
    Failure i m (.advance rest :: refusalEvents i.operation .nestedFunction)
      ({ m with unread := rest }.refuse i.operation .nestedFunction)
  | tooDeep (name : String) (deep : maxDepth ≤ m.depth) :
    Failure i m (.overflow name :: refusalEvents i.operation (.callDepth name))
      (m.refuse i.operation (.callDepth name))

/-- What the surface refuses is an error and no failure. -/
theorem executedUnless_ne_failed (r : Option Error × Machine σ) :
    executedUnless i r ≠ (.failed, m') := by
  obtain ⟨_ | error, m₁⟩ := r <;> simp [executedUnless]

/-- A call fails where there is no room for it, and nowhere else. -/
theorem invoke_failed (hdeeper : deeper = none → maxDepth ≤ m.depth) {f : Function}
    {args : List Number} (h : invoke step (deeper.map Runner.run) i f args m = (.failed, m')) :
    Failure i m (invokeEvents deeper i f args m) m' := by
  unfold invoke at h
  unfold invokeEvents
  cases hbody : f.body with
  | builtin routine => simp [hbody] at h
  | host routine => simp [hbody] at h
  | recorded body =>
    cases deeper with
    | none =>
      simp only [hbody, Option.map_none, Prod.mk.injEq, true_and] at h
      subst h
      exact .tooDeep f.name (hdeeper rfl)
    | some runner =>
      simp only [hbody, Option.map_some] at h
      exact absurd h (executedUnless_ne_failed _)

theorem perform_failed [Surface σ] (hdeeper : deeper = none → maxDepth ≤ m.depth) {a : Action}
    (hfunc : ∀ name argNames, a = .record name argNames → i.is "func" = true)
    (h : perform step (deeper.map Runner.run) i m a = (.failed, m')) :
    Failure i m (performEvents deeper i m a) m' := by
  cases a with
  | skip | setRegister | removeVariable | log => simp [perform] at h
  | setVariable name value => exact absurd h (executedUnless_ne_failed _)
  | record name argNames =>
    unfold perform at h
    unfold performEvents
    cases hbody : recordBody m.unread [] with
    | complete body rest => simp [hbody] at h
    | nested rest =>
      simp only [hbody, Prod.mk.injEq, true_and] at h
      subst h
      exact .nested rest (hfunc name argNames rfl)
  | invoke f args => exact invoke_failed hdeeper h
  | draw commands => exact absurd h (executedUnless_ne_failed _)

/-- Only a `func` statement comes to recording a function. -/
theorem func_of_plan_record {s : Statement} {name : String} {argNames : List String}
    (h : m.plan s = .ok (.record name argNames)) : s = .func name argNames := by
  cases plans_of_plan h with
  | func => rfl
  | callWhen _ called => cases called
  | setWhen _ set => cases set

/-- An instruction that is no `func` does not come to recording a function. -/
theorem plan_ne_record {s : Statement} (hs : Statement.ofInstruction i = .ok s)
    (hi : i.is "func" = false) (name : String) (argNames : List String) :
    m.plan s ≠ .ok (.record name argNames) := by
  intro hplan
  rw [func_of_plan_record hplan] at hs
  rw [(Statement.ofInstruction_eq_func_iff.1 hs).1] at hi
  cases hi

theorem interpretWith_failed [Surface σ] (hdeeper : deeper = none → maxDepth ≤ m.depth)
    (h : interpretWith step (deeper.map Runner.run) i m = (.failed, m')) :
    ∃ reports, eventsWith deeper i m = .begin i :: reports ∧ Failure i m reports m' := by
  cases heof : i.isEof with
  | true =>
    rw [interpretWith_eof heof] at h
    cases h
  | false =>
    cases hs : Statement.ofInstruction i with
    | error rejection =>
      rw [interpretWith_rejected heof hs] at h
      cases h
      exact ⟨_, eventsWith_rejected heof hs, .rejected rejection⟩
    | ok s =>
      cases hplan : m.plan s with
      | error fault =>
        rw [interpretWith_refused heof hs hplan] at h
        cases h
        exact ⟨_, eventsWith_refused heof hs hplan, .refused fault⟩
      | ok a =>
        rw [interpretWith_performed heof hs hplan] at h
        refine ⟨_, eventsWith_performed heof hs hplan, perform_failed hdeeper ?_ h⟩
        intro name argNames ha
        subst ha
        rw [func_of_plan_record hplan] at hs
        exact (Statement.ofInstruction_eq_func_iff.1 hs).1

theorem interpret_failed [Surface σ] (h : interpret i m = (.failed, m')) :
    ∃ reports, events i m = .begin i :: reports ∧ Failure i m reports m' := by
  unfold interpret at h
  unfold events
  cases hroom : maxDepth - m.depth with
  | zero =>
    rw [hroom] at h
    exact interpretWith_failed (fun _ ↦ by omega) h
  | succ room =>
    rw [hroom] at h
    exact interpretWith_failed (by simp) h

namespace Failure

variable {reports : List Event}

/-- Failing changes nothing but the text, the depth and what has been said. -/
theorem agree (h : Failure i m reports m') : Agree m m' := by
  cases h <;> exact ⟨rfl, rfl, rfl, rfl, rfl⟩

theorem depth (h : Failure i m reports m') : m'.depth = m.depth := by
  cases h <;> rfl

/-- Only a `func` has used up text when it fails. -/
theorem unread (h : Failure i m reports m') (hfunc : i.is "func" = false) :
    m'.unread = m.unread := by
  cases h with
  | nested rest func => exact absurd func (by simp [hfunc])
  | rejected | refused | tooDeep => rfl

theorem isReport (h : Failure i m reports m') : ∀ e ∈ reports, e.IsReport := by
  intro e he
  cases h with
  | rejected | refused | nested | tooDeep =>
    simp only [refusalEvents, List.mem_cons, List.not_mem_nil, or_false] at he
    rcases he with rfl | rfl | rfl <;> trivial

theorem trace [Surface σ] (h : Failure i m reports m') : Trace m reports m' := by
  cases h with
  | rejected => exact .single trivial
  | refused => exact .cons trivial (.single trivial)
  | nested => exact .cons trivial (.cons trivial (.single trivial))
  | tooDeep _ deep => exact .cons deep (.cons trivial (.single trivial))

end Failure

/-- A failed instruction is atomic, in every machine and whatever the instruction: registers,
variables, functions, surface, random numbers and depth are as before, and so is the text unless the
operation is `func`. All that has happened, from the start of the instruction to its end, are
reports: no body and no routine of a function was started. -/
theorem failed_instruction_atomic [Surface σ] {i : Instruction} {m m' : Machine σ}
    (h : interpret i m = (.failed, m')) :
    Agree m m' ∧ m'.depth = m.depth ∧ (i.is "func" = false → m'.unread = m.unread) ∧
      ∃ reports, events i m = .begin i :: reports ∧ Trace m reports m' ∧
        ∀ e ∈ reports, e.IsReport := by
  obtain ⟨reports, hevents, hfailure⟩ := interpret_failed h
  exact ⟨hfailure.agree, hfailure.depth, hfailure.unread,
    reports, hevents, hfailure.trace, hfailure.isReport⟩

/-- A machine at the start of a program, on an empty canvas. -/
def fresh (source : String) : Machine Canvas := initial source (.empty 640 480) 7

/-- A machine that has a function to call and no room left for the call. -/
def atDepthLimit : Machine Canvas :=
  { (fresh "fill").define (.recorded "f" [] [⟨"add", ["1", "2"]⟩]) with
    depth := maxDepth }

theorem interpret_atDepthLimit :
    interpret ⟨"call", ["f"]⟩ atDepthLimit =
      (.failed, atDepthLimit.refuse "call" (.callDepth "f")) := by
  have hstatement : Statement.ofInstruction ⟨"call", ["f"]⟩ = .ok (.call "f" []) := rfl
  have hf : atDepthLimit.functions["f"]? = some (.recorded "f" [] [⟨"add", ["1", "2"]⟩]) :=
    getElem?_define_self (fresh "fill") _
  exact interpretWith_performed rfl hstatement (plan_call hf rfl)

/-- A call too deep fails, and nothing of the function has run. -/
theorem call_atDepthLimit_atomic :
    interpret ⟨"call", ["f"]⟩ atDepthLimit =
        (.failed, atDepthLimit.refuse "call" (.callDepth "f")) ∧
      Agree atDepthLimit (atDepthLimit.refuse "call" (.callDepth "f")) ∧
      ∃ reports, events ⟨"call", ["f"]⟩ atDepthLimit = .begin ⟨"call", ["f"]⟩ :: reports ∧
        ∀ e ∈ reports, e.IsReport := by
  obtain ⟨hagree, -, -, reports, hevents, -, hreports⟩ :=
    failed_instruction_atomic interpret_atDepthLimit
  exact ⟨interpret_atDepthLimit, hagree, reports, hevents, hreports⟩

end Machine

end PenMachine
