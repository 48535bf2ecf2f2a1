import PenMachine.Proofs.Calls

/-!
# Control flow depends on the text alone

There are no jumps. A step moves on behind its instruction, and a `func` behind the function that it
records, which ends at the next `func` or at the end of the program. Whether a `func` records at all
is decided by its own words. So what is left of the text after a step depends on the text before it
and on nothing else (`Machine.unread_step`), since calls leave the text alone. Two machines with the
same program take the same instructions off it in the same order, whatever their registers,
variables, functions, surfaces and random numbers are (`Machine.top_level_flow_from_text`).
-/

namespace PenMachine.Machine

variable {σ τ : Type}

/-- Where the program goes on when an instruction has been taken off, given the text behind it. -/
def textBehind (i : Instruction) (text : List Char) : List Char :=
  match Statement.ofInstruction i with
  | .ok (.func name argNames) =>
    match planRecord name argNames with
    | .ok _ => (recordBody text []).rest
    | .error _ => text
  | _ => text

/-- Only a `func` takes more than itself. -/
theorem textBehind_of_not_func {i : Instruction} (hi : i.is "func" = false) (text : List Char) :
    textBehind i text = text := by
  unfold textBehind
  split
  · rename_i hs
    rw [(Statement.ofInstruction_eq_func_iff.1 hs).1] at hi
    cases hi
  · rfl

section Instruction

variable [Surface σ] {m : Machine σ} {i : Instruction}

theorem unread_perform_record (step : Machine σ → Outcome × Machine σ)
    (deeper : Option (Instruction → Machine σ → Outcome × Machine σ)) (name : String)
    (argNames : List String) :
    (perform step deeper i m (.record name argNames)).2.unread = (recordBody m.unread []).rest := by
  rw [perform]
  cases recordBody m.unread [] <;> rfl

/-- A `func` that may record moves past its body, and any other leaves the text behind it alone. -/
theorem unread_interpretWith_func (step : Machine σ → Outcome × Machine σ)
    (deeper : Option (Instruction → Machine σ → Outcome × Machine σ)) (hi : i.is "func" = true) :
    (interpretWith step deeper i m).2.unread = textBehind i m.unread := by
  have heof : i.isEof = false := Instruction.isEof_of_is hi (by decide)
  have hs := Statement.ofInstruction_func hi
  cases hparams : i.params with
  | nil =>
    rw [hparams] at hs
    rw [interpretWith_rejected heof hs, textBehind, hs]
    rfl
  | cons name argNames =>
    rw [hparams] at hs
    cases hplan : planRecord name argNames with
    | error fault =>
      have hrefused : m.plan (.func name argNames) = .error fault := hplan
      rw [interpretWith_refused heof hs hrefused, textBehind, hs]
      simp only [hplan]
      rfl
    | ok a =>
      have hperformed : m.plan (.func name argNames) = .ok a := hplan
      rw [interpretWith_performed heof hs hperformed, textBehind, hs]
      simp only [hplan]
      cases plans_of_plan hperformed
      exact unread_perform_record step deeper name argNames

/-- What an instruction leaves of the text depends on its words and on the text. -/
theorem unread_interpretWithin (step : Machine σ → Outcome × Machine σ) (room : Nat)
    (hm : m.KeepsText) :
    (interpretWithin step room i m).2.unread = textBehind i m.unread := by
  cases hi : i.is "func" with
  | true =>
    obtain ⟨deeper, hwith⟩ := exists_interpretWith step room
    rw [hwith]
    exact unread_interpretWith_func step deeper hi
  | false =>
    rw [(interpretWithin_keepsText step room hm hi).1, textBehind_of_not_func hi]

end Instruction

def textAfterStep (text : List Char) : List Char :=
  textBehind (Source.next text).1 (Source.next text).2

/-- The instructions that the first `n` steps carry out, read off the text. -/
def topLevel : Nat → List Char → List Instruction
  | 0, _ => []
  | n + 1, text => (Source.next? text).1.toList ++ topLevel n (textAfterStep text)

/-- The instructions that the first `n` steps of a machine take off its text and carry out. At the
end of the program there is none. -/
def dispatched [Surface σ] : Nat → Machine σ → List Instruction
  | 0, _ => []
  | n + 1, m => (Source.next? m.unread).1.toList ++ dispatched n m.step.2

theorem KeepsText.reset {m : Machine σ} (hm : m.KeepsText) (source : String) :
    (m.reset source).KeepsText := hm

section Steps

variable [Surface σ] [Surface τ] {m : Machine σ} {m' : Machine τ}

theorem unread_step (hm : m.KeepsText) : m.step.2.unread = textAfterStep m.unread := by
  obtain ⟨step, hstep⟩ := exists_step m
  rw [hstep]
  exact unread_interpretWithin step _ hm

theorem KeepsText.step (hm : m.KeepsText) : m.step.2.KeepsText :=
  hm.trace (accounts_stepEvents hm.stepless).trace

theorem KeepsText.afterSteps (hm : m.KeepsText) (n : Nat) : (m.afterSteps n).KeepsText := by
  induction n with
  | zero => exact hm
  | succ n ih => exact ih.step

/-- What a machine carries out at top level can be read off its text. -/
theorem dispatched_eq_topLevel (hm : m.KeepsText) (n : Nat) :
    dispatched n m = topLevel n m.unread := by
  induction n generalizing m with
  | zero => rfl
  | succ n ih => rw [dispatched, topLevel, ih hm.step, unread_step hm]

/-- Machines at the same text stay at the same text. -/
theorem unread_afterSteps_eq (hm : m.KeepsText) (hm' : m'.KeepsText)
    (htext : m.unread = m'.unread) (n : Nat) :
    (m.afterSteps n).unread = (m'.afterSteps n).unread := by
  induction n with
  | zero => exact htext
  | succ n ih =>
    rw [afterSteps, afterSteps, unread_step (hm.afterSteps n), unread_step (hm'.afterSteps n), ih]

/-- Runs of the same text that end without an error have counted the same steps. -/
theorem count_eq_of_runWithin {length count total total' : Nat} {r : Machine σ} {r' : Machine τ}
    (hm : m.KeepsText) (hm' : m'.KeepsText) (htext : m.unread = m'.unread)
    (hrun : runWithin length count m = (.ok total, r))
    (hrun' : runWithin length count m' = (.ok total', r')) : total = total' := by
  induction length generalizing m m' count with
  | zero =>
    cases hrun
    cases hrun'
    rfl
  | succ length ih =>
    have heof : m.step.1 = .eof ↔ m'.step.1 = .eof := by
      rw [step_eof_iff, step_eof_iff, htext]
    have hnext : m.step.2.unread = m'.step.2.unread := by
      rw [unread_step hm, unread_step hm', htext]
    have hrest : runWithin length (count + 1) m.step.2 = (.ok total, r) →
        runWithin length (count + 1) m'.step.2 = (.ok total', r') → total = total' :=
      ih hm.step hm'.step hnext
    rw [runWithin] at hrun hrun'
    rcases hstep : m.step with ⟨outcome, m₁⟩
    rcases hstep' : m'.step with ⟨outcome', m₁'⟩
    rw [hstep, hstep'] at heof hrest
    rw [hstep] at hrun
    rw [hstep'] at hrun'
    cases outcome with
    | fatal error => cases hrun
    | eof =>
      obtain rfl : outcome' = .eof := heof.1 rfl
      cases hrun
      cases hrun'
      rfl
    | executed | failed =>
      cases outcome' with
      | fatal error => cases hrun'
      | eof => cases heof.2 rfl
      | executed | failed => exact hrest hrun hrun'

end Steps

/-- Machines of any two sessions that are given the same program carry out the same instructions at
top level, step by step. They do so also behind an error of the surface, if they are made to go on.
Both are always at the same place of the text, and at its end at the same time. So when both runs
end without an error they have counted the same steps. -/
theorem top_level_flow_from_text [Surface σ] [Surface τ] {measured : σ} {measured' : τ}
    {m : Machine σ} {m' : Machine τ} (h : Session measured m) (h' : Session measured' m')
    (source : String) :
    (∀ n, dispatched n (m.reset source) = dispatched n (m'.reset source)) ∧
      (∀ n, ((m.reset source).afterSteps n).unread = ((m'.reset source).afterSteps n).unread) ∧
      (∀ n, ((m.reset source).afterSteps n).step.1 = .eof ↔
        ((m'.reset source).afterSteps n).step.1 = .eof) ∧
      ∀ count count', (m.reset source).run.1 = .ok count → (m'.reset source).run.1 = .ok count' →
        count = count' := by
  have hm := h.fromSource.keepsText.reset source
  have hm' := h'.fromSource.keepsText.reset source
  have hplace := unread_afterSteps_eq hm hm' rfl
  refine ⟨fun n ↦ ?_, hplace, fun n ↦ ?_, fun count count' hrun hrun' ↦ ?_⟩
  · rw [dispatched_eq_topLevel hm, dispatched_eq_topLevel hm']
    rfl
  · rw [step_eof_iff, step_eof_iff, hplace n]
  · exact count_eq_of_runWithin hm hm' rfl (Prod.ext hrun rfl) (Prod.ext hrun' rfl)

/-- A new machine draws, and a machine on a full canvas ends in an error each time it tries to, but
they are led through the program in the same way. -/
theorem flow_onEmptyCanvas_and_onResizedCanvas :
    Session (Canvas.empty 640 480) (fresh "") ∧
      Session (fullCanvas.resize 100 50) onResizedCanvas ∧
      dispatched 3 (onResizedCanvas.reset "func f ; draws\nfill\nfunc end\ncall f\nfill") =
        dispatched 3 ((fresh "").reset
          "func f ; draws\nfill\nfunc end\ncall f\nfill") ∧
      dispatched 3 (onResizedCanvas.reset "func f ; draws\nfill\nfunc end\ncall f\nfill") =
        [⟨"func", ["f"]⟩, ⟨"call", ["f"]⟩, ⟨"fill", []⟩] := by
  have hempty : Session (Canvas.empty 640 480) (fresh "") :=
    .start "" _ 7
  obtain ⟨hflow, -⟩ := top_level_flow_from_text session_onResizedCanvas hempty
    "func f ; draws\nfill\nfunc end\ncall f\nfill"
  have htext : topLevel 3 "func f ; draws\nfill\nfunc end\ncall f\nfill".toList =
      [⟨"func", ["f"]⟩, ⟨"call", ["f"]⟩, ⟨"fill", []⟩] := by
    decide +kernel
  refine ⟨hempty, session_onResizedCanvas, hflow 3, ?_⟩
  rw [dispatched_eq_topLevel (session_onResizedCanvas.fromSource.keepsText.reset _), reset]
  exact htext

end PenMachine.Machine
