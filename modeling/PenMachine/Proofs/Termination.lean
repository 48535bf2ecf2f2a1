import PenMachine.Proofs.Onward
import PenMachine.Proofs.Reachable

/-!
# Every program ends

A program ends whatever the functions are that its text calls, also when they call themselves or one
another over and over (`Machine.every_program_terminates`). Three things decrease. A call goes one
deeper, and at the limit it is refused; a body goes on with its next instruction; and the program
goes on behind the instruction that it has read. The first two give every step a derivation, as
`Machine.steps_iff` says. Here it is the text that decreases: whatever a step does, the program goes
on behind the instruction of the step (`Machine.onward_step`), and so every step but the last uses
up a line that has words.
-/

namespace PenMachine

namespace Source

/-- Reading on leaves no more lines than there were. -/
theorem Onward.wordLines_le {text rest : List Char} (h : Onward text rest) :
    LineGrammar.wordLines rest ≤ LineGrammar.wordLines text := by
  rw [← LineGrammar.length_instructions, ← LineGrammar.length_instructions]
  exact h.instructions_suffix.length_le

/-- An instruction uses up a line with words. -/
theorem wordLines_next_lt {text : List Char} (h : (next text).1.isEof = false) :
    LineGrammar.wordLines (next text).2 < LineGrammar.wordLines text := by
  rw [← LineGrammar.length_instructions, ← LineGrammar.length_instructions, instructions_next]
  cases hall : LineGrammar.instructions text with
  | nil =>
    rw [next_of_instructions_nil hall] at h
    cases h
  | cons i more => exact Nat.lt_succ_self more.length

end Source

namespace Machine

variable {σ : Type} [Surface σ] {m m' : Machine σ}

theorem more_of_step (h : m.step.1 ≠ .eof) : (Source.next m.unread).1.isEof = false := by
  rw [← Bool.not_eq_true]
  intro heof
  rw [step_of_isEof heof] at h
  exact h rfl

/-- A step that is not the end of the program shortens the text. -/
theorem length_step_lt (h : m.step.1 ≠ .eof) : m.step.2.unread.length < m.unread.length := by
  calc m.step.2.unread.length
      ≤ (Source.next m.unread).2.length := (onward_step m).suffix.length_le
    _ < m.unread.length := Source.length_next_lt m.unread (more_of_step h)

/-- A step that is not the end of the program uses up a line with words. -/
theorem wordLines_step_lt (h : m.step.1 ≠ .eof) :
    LineGrammar.wordLines m.step.2.unread < LineGrammar.wordLines m.unread := by
  calc LineGrammar.wordLines m.step.2.unread
      ≤ LineGrammar.wordLines (Source.next m.unread).2 := (onward_step m).wordLines_le
    _ < LineGrammar.wordLines m.unread := Source.wordLines_next_lt (more_of_step h)

theorem stepless_step (hm : m.Stepless) : m.step.2.Stepless := by
  obtain ⟨events, haccount⟩ := accounts_step hm
  exact hm.trace haccount.trace

/-- Any count that is no less than the text's length lets a run take its next step. -/
theorem runWithin_of_le {length : Nat} (h : m.unread.length ≤ length) (count : Nat) :
    runWithin length count m = match m.step with
      | (.eof, m') => (.ok count, m')
      | (.fatal error, m') => (.error error, m')
      | (_, m') => runWithin (length - 1) (count + 1) m' := by
  cases length with
  | zero =>
    have hnil : m.unread = [] := List.eq_nil_of_length_eq_zero (Nat.le_zero.1 h)
    rw [step, hnil, stepWithin, runWithin]
  | succ length =>
    rw [Nat.add_sub_cancel]
    rcases hstep : m.step with ⟨_ | _ | _ | _, m'⟩ <;> simp only [runWithin, hstep]

/-- A run follows the rules when it is given as many steps as the text has characters. -/
theorem runs_runWithin {length : Nat} (hm : m.Stepless) (h : m.unread.length ≤ length)
    (count : Nat) :
    ∃ n, Runs count m n (runWithin length count m).1 (runWithin length count m).2 := by
  -- The induction is on the lines with words, since every step but the last uses one up.
  induction hlines : LineGrammar.wordLines m.unread using Nat.strongRecOn
    generalizing m length count with
  | ind lines ih =>
    subst hlines
    have hstep := steps_step hm
    have hnext : m.step.1 ≠ .eof → m.step.1.error? = none →
        ∃ n, Runs count m n (runWithin (length - 1) (count + 1) m.step.2).1
          (runWithin (length - 1) (count + 1) m.step.2).2 := by
      intro hmore halive
      have hshorter := length_step_lt hmore
      obtain ⟨n, hn⟩ := ih _ (wordLines_step_lt hmore) (stepless_step hm)
        (show m.step.2.unread.length ≤ length - 1 by omega) (count + 1) rfl
      exact ⟨n + 1, .next hstep hmore halive hn⟩
    rw [runWithin_of_le h]
    rcases houtcome : m.step with ⟨outcome, m₁⟩
    rw [houtcome] at hstep hnext
    cases outcome with
    | eof => exact ⟨0, .eof hstep⟩
    | fatal error => exact ⟨1, .fatal hstep⟩
    | executed | failed => exact hnext (by simp) rfl

/-- The rules of running give nothing else, and no more steps than there are lines with words. -/
theorem Runs.runWithin_eq {length count n : Nat} {result : Except Error Nat}
    (hruns : Runs count m n result m') (hm : m.Stepless) (h : m.unread.length ≤ length) :
    runWithin length count m = (result, m') ∧ n ≤ LineGrammar.wordLines m.unread := by
  induction hruns generalizing length with
  | eof step =>
    rw [runWithin_of_le h, (steps_iff hm).1 step]
    exact ⟨rfl, Nat.zero_le _⟩
  | fatal step =>
    have hstep := (steps_iff hm).1 step
    rw [runWithin_of_le h, hstep]
    exact ⟨rfl, Nat.zero_lt_of_lt (wordLines_step_lt (by simp [hstep]))⟩
  | @next count n m m₁ m' outcome result step more alive rest ih =>
    have hstep := (steps_iff hm).1 step
    have hmore : m.step.1 ≠ .eof := by rw [hstep]; exact more
    have hshorter := length_step_lt hmore
    have hlines := wordLines_step_lt hmore
    have hstepless := stepless_step hm
    simp only [hstep] at hshorter hlines hstepless
    obtain ⟨hrun, hn⟩ := ih hstepless (show m₁.unread.length ≤ length - 1 by omega)
    refine ⟨?_, by omega⟩
    rw [runWithin_of_le h, hstep]
    cases outcome with
    | eof => exact absurd rfl more
    | fatal error => cases alive
    | executed | failed => exact hrun

/-- Every program ends. By rules that bound neither the reading nor the calls nor the steps, every
step comes to an end, and to that of `Machine.step`. If it is not the end of the program it leaves
less of the text. The run comes to an end as well, and to that of `Machine.run`, with no more steps
before it than the text has lines with words. -/
theorem every_program_terminates (m : Machine σ) (hm : m.Stepless) :
    (∀ outcome m', Steps m outcome m' ↔ m.step = (outcome, m')) ∧
      (m.step.1 ≠ .eof →
        m.step.2.unread <:+ m.unread ∧ m.step.2.unread.length < m.unread.length) ∧
      (∃ n, Runs 0 m n m.run.1 m.run.2) ∧
      ∀ n result m', Runs 0 m n result m' →
        m.run = (result, m') ∧ n ≤ LineGrammar.wordLines m.unread := by
  refine ⟨fun outcome m' ↦ steps_iff hm, fun hmore ↦ ?_, ?_, fun n result m' hruns ↦ ?_⟩
  · exact ⟨(readsOn_step m).suffix, length_step_lt hmore⟩
  · exact runs_runWithin hm (Nat.le_refl _) 0
  · exact hruns.runWithin_eq hm (Nat.le_refl _)

/-- A machine that calls `f` twice, where `f` and `g` call each other twice. Nothing but the depth
ends these calls, so there are more than `2 ^ 256` of them. -/
def doublingCalls : Machine Canvas :=
  let twice (name : String) : List Instruction := [⟨"call", [name]⟩, ⟨"call", [name]⟩]
  fresh "call f ; first\n\n , ; nothing\ncall f"
    |>.define (.recorded "f" [] (twice "g"))
    |>.define (.recorded "g" [] (twice "f"))

theorem stepless_doublingCalls : doublingCalls.Stepless := by
  intro name f hf
  simp only [doublingCalls, define, Std.HashMap.getElem?_insert] at hf
  split at hf
  · cases hf
    trivial
  · split at hf
    · cases hf
      trivial
    · exact (fromSource_initial _ (Canvas.empty 640 480) 7).stepless name f hf

/-- The calls come to an end, and of the four lines only two are steps. -/
theorem doublingCalls_terminates :
    doublingCalls.Stepless ∧ Steps doublingCalls doublingCalls.step.1 doublingCalls.step.2 ∧
      ∃ n ≤ 2, Runs 0 doublingCalls n doublingCalls.run.1 doublingCalls.run.2 := by
  obtain ⟨hsteps, -, ⟨n, hruns⟩, hbound⟩ :=
    every_program_terminates doublingCalls stepless_doublingCalls
  have hlines : LineGrammar.wordLines doublingCalls.unread = 2 := by
    decide
  have hn := (hbound n _ _ hruns).2
  rw [hlines] at hn
  exact ⟨stepless_doublingCalls, (hsteps _ _).2 rfl, n, hn, hruns⟩

end Machine

end PenMachine
