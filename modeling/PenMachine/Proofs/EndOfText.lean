import PenMachine.Proofs.Lockstep
import PenMachine.Proofs.Onward

/-!
# When the end of a program is final

A step reports the end of the program when its instruction is named `EOF`. The instruction behind
the last one is, but a line of the text can be named so as well, and such a line is read like any
other: what stands behind it is carried out when there are further steps. The end is therefore final
just when every instruction that is left is named `EOF` (`Machine.eof_lasts_iff`), and so in all
texts that do not name it.
-/

namespace PenMachine

namespace Source

theorem skip_succ (n : Nat) (text : List Char) : skip (n + 1) text = (next (skip n text)).2 :=
  (skip_skip n 1 text).symm

/-- Whether every instruction of a text ends the program. -/
def AllEof (text : List Char) : Prop := ∀ i ∈ LineGrammar.instructions text, i.isEof = true

instance (text : List Char) : Decidable (AllEof text) :=
  inferInstanceAs (Decidable (∀ i ∈ LineGrammar.instructions text, i.isEof = true))

/-- Reading on in such a text finds nothing else. -/
theorem AllEof.onward {text rest : List Char} (h : AllEof text) (honward : Onward text rest) :
    AllEof rest := by
  intro i hi
  exact h i (honward.instructions_suffix.subset hi)

theorem isEof_next_of_allEof {text : List Char} (h : AllEof text) :
    (next text).1.isEof = true := by
  cases hall : LineGrammar.instructions text with
  | nil =>
    rw [next_of_instructions_nil hall]
    rfl
  | cons i more =>
    obtain ⟨rest, hnext, -⟩ := next_of_instructions_cons hall
    rw [hnext]
    exact h i (by simp [hall])

/-- Asking for instructions gives nothing but ends just when the text holds nothing else. -/
theorem isEof_skip_iff (text : List Char) :
    (∀ n, (next (skip n text)).1.isEof = true) ↔ AllEof text := by
  constructor
  · intro h i hi
    obtain ⟨n, hn⟩ := List.mem_iff_getElem?.1 hi
    have heof := h n
    rwa [next_skip, hn] at heof
  · intro h n
    exact isEof_next_of_allEof (h.onward ⟨n, rfl⟩)

theorem next?_eq_none_iff (text : List Char) :
    (next? text).1 = none ↔ (next text).1.isEof = true := by
  simp [next?]

/-- Asking gives nothing for ever just when there is nothing but ends ahead. -/
theorem next?_skip_iff (text : List Char) :
    (∀ n, (next? (skip n text)).1 = none) ↔ AllEof text := by
  simp only [next?_eq_none_iff]
  exact isEof_skip_iff text

/-- At the end of a text that does not name it nothing is left to ask for. -/
theorem next_skip_of_isEof {text : List Char}
    (h : ∀ i ∈ LineGrammar.instructions text, i.isEof = false)
    (heof : (next text).1.isEof = true) (n : Nat) : next (skip n text) = (.eof, []) := by
  apply next_of_instructions_nil
  rw [instructions_skip]
  cases hall : LineGrammar.instructions text with
  | nil => exact List.drop_nil
  | cons i more =>
    obtain ⟨rest, hnext, -⟩ := next_of_instructions_cons hall
    have hmore := h i (by simp [hall])
    rw [hnext, hmore] at heof
    cases heof

end Source

namespace Machine

variable {σ : Type} [Surface σ] {m m' : Machine σ}

theorem step_eof_iff : m.step.1 = .eof ↔ (Source.next m.unread).1.isEof = true := by
  obtain ⟨step, hstep⟩ := exists_step m
  constructor
  · intro h
    rw [← Bool.not_eq_false]
    intro hmore
    rw [hstep] at h
    exact interpretWithin_ne_eof hmore h
  · intro h
    rw [step_of_isEof h]

def afterSteps (m : Machine σ) : Nat → Machine σ
  | 0 => m
  | n + 1 => (m.afterSteps n).step.2

/-- As long as steps report the end, only the text is used up. -/
theorem afterSteps_of_eof {n : Nat} (h : ∀ k < n, (m.afterSteps k).step.1 = .eof) :
    m.afterSteps n = { m with unread := Source.skip n m.unread } := by
  induction n with
  | zero => rfl
  | succ n ih =>
    have hbefore := ih fun k hk ↦ h k (Nat.lt_succ_of_lt hk)
    have heof := step_eof_iff.1 (h n (Nat.lt_succ_self n))
    rw [afterSteps, step_of_isEof heof, hbefore, Source.skip_succ]

/-- Steps find the end for ever just when there is nothing but ends ahead. -/
theorem afterSteps_eof_iff :
    (∀ n, (m.afterSteps n).step.1 = .eof) ↔ Source.AllEof m.unread := by
  rw [← Source.isEof_skip_iff]
  constructor
  · intro h n
    have hafter := afterSteps_of_eof fun k (_ : k < n) ↦ h k
    have heof := step_eof_iff.1 (h n)
    rwa [hafter] at heof
  · intro h n
    -- When all steps before were ends, the machine has only read on.
    induction n using Nat.strongRecOn with
    | ind n ih =>
      rw [step_eof_iff, afterSteps_of_eof ih]
      exact h n

/-- What can become of a machine that is not reset. It takes steps, it carries out instructions from
outside the program, and the embedding program may change everything but the text. -/
inductive Later (m : Machine σ) : Machine σ → Prop where
  | refl : Later m m
  | step {m' : Machine σ} (h : Later m m') : Later m m'.step.2
  | interpret {m' : Machine σ} (h : Later m m') (i : Instruction) : Later m (interpret i m').2
  | change {m' m'' : Machine σ} (h : Later m m') (text : m''.unread = m'.unread) : Later m m''

/-- Without a reset the text is only read on. -/
theorem Later.onward (h : Later m m') : Source.Onward m.unread m'.unread := by
  induction h with
  | refl => exact .refl m.unread
  | step _ ih => exact ih.trans (readsOn_step _)
  | interpret _ i ih => exact ih.trans (readsOn_interpret i _)
  | change _ text ih =>
    rw [text]
    exact ih

theorem later_afterSteps (m : Machine σ) (n : Nat) : Later m (m.afterSteps n) := by
  induction n with
  | zero => exact .refl
  | succ n ih => exact .step ih

/-- At a lasting end a step uses up a line at most. -/
theorem Later.step_of_allEof (h : Later m m') (hall : Source.AllEof m.unread) :
    m'.step = (.eof, { m' with unread := (Source.next m'.unread).2 }) :=
  step_of_isEof (Source.isEof_next_of_allEof (hall.onward h.onward))

/-- Behind the end of the text a step changes nothing. -/
theorem Later.step_of_unread_nil (h : Later m m') (hnil : m.unread = []) :
    m'.step = (.eof, m') := by
  have honward := h.onward
  rw [hnil] at honward
  have hnil' : m'.unread = [] := honward.eq_nil
  have hnext : Source.next m'.unread = (.eof, []) := by rw [hnil', Source.next_nil]
  have heof : (Source.next m'.unread).1.isEof = true := by rw [hnext]; rfl
  rw [step_of_isEof heof, hnext, ← hnil']

/-- The end of a program, once it is reported, is final just when every instruction left is named
`EOF`. It then is in the strongest sense: whatever is done to the machine short of a reset, every
later step reports the end and changes nothing but its place in the text. Otherwise it is not even
in the weakest sense, that steps one after another report the end. In a text that does not name
`EOF` it is final, and later steps change nothing at all. The same goes for asking a text for its
instructions until there is none. -/
theorem eof_lasts_iff (m : Machine σ) (h : m.step.1 = .eof) :
    ((∀ m', Later m m' → m'.step = (.eof, { m' with unread := (Source.next m'.unread).2 })) ↔
        Source.AllEof m.unread) ∧
      ((∀ n, (m.afterSteps n).step.1 = .eof) ↔ Source.AllEof m.unread) ∧
      ((∀ i ∈ LineGrammar.instructions m.unread, i.isEof = false) →
        ∀ m', Later m.step.2 m' → m'.step = (.eof, m')) ∧
      ∀ text, (Source.next? text).1 = none →
        ((∀ n, (Source.next? (Source.skip n text)).1 = none) ↔ Source.AllEof text) ∧
        ((∀ i ∈ LineGrammar.instructions text, i.isEof = false) →
          ∀ n, Source.next? (Source.skip n text) = (none, [])) := by
  refine ⟨⟨fun hlater ↦ ?_, fun hall m' hlater ↦ hlater.step_of_allEof hall⟩, afterSteps_eof_iff,
    fun hnone m' hlater ↦ ?_, fun text hend ↦ ⟨Source.next?_skip_iff text, fun hnone n ↦ ?_⟩⟩
  · apply afterSteps_eof_iff.1
    intro n
    rw [hlater _ (later_afterSteps m n)]
  · have heof := step_eof_iff.1 h
    have hused := Source.next_skip_of_isEof hnone heof 0
    apply hlater.step_of_unread_nil
    rw [step_of_isEof heof]
    exact congrArg Prod.snd hused
  · have heof := (Source.next?_eq_none_iff text).1 hend
    rw [Source.next?, Source.next_skip_of_isEof hnone heof n]
    rfl

/-- On lines that are all named `EOF`, and on a text without words, the end is final. -/
theorem eof_lasts_onEofLines_and_onBlankText :
    (∀ m', Later (fresh "EOF\n ,EOF fill ; again") m' →
        m'.step.1 = .eof) ∧
      ∀ m', Later (fresh "\n, ; EOF").step.2 m' →
        m'.step = (.eof, m') := by
  have hlines : Source.AllEof "EOF\n ,EOF fill ; again".toList := by decide
  have hblank : LineGrammar.instructions "\n, ; EOF".toList = [] := by decide
  have hnext : Source.next "\n, ; EOF".toList = (.eof, []) := Source.next_of_instructions_nil hblank
  obtain ⟨hlater, -⟩ := eof_lasts_iff (fresh "EOF\n ,EOF fill ; again")
    (step_eof_iff.2 (Source.isEof_next_of_allEof hlines))
  obtain ⟨-, -, hnone, -⟩ := eof_lasts_iff (fresh "\n, ; EOF")
    (step_eof_iff.2 (by rw [fresh, initial, hnext]; rfl))
  refine ⟨fun m' hm' ↦ ?_, hnone ?_⟩
  · rw [hlater.2 hlines m' hm']
  · intro i hi
    rw [fresh, initial, hblank] at hi
    cases hi

/-- A line named `EOF` is no lasting end: the next step fills, and asking on gives the line with
`fill`. -/
theorem fill_after_eof :
    (fresh "EOF\nfill\n").step.1 = .eof ∧
      (fresh "EOF\nfill\n").step.2.step.1 = .executed ⟨"fill", []⟩ ∧
      (fresh "EOF\nfill\n").step.2.step.2.surface.commands = #[.fill] ∧
      (Source.next? "EOF\nfill\n".toList).1 = none ∧
      (Source.next? (Source.next? "EOF\nfill\n".toList).2).1 = some ⟨"fill", []⟩ := by
  have hall : LineGrammar.instructions "EOF\nfill\n".toList = [⟨"EOF", []⟩, ⟨"fill", []⟩] := by
    decide
  obtain ⟨rest, hfirst, hrest⟩ := Source.next_of_instructions_cons hall
  obtain ⟨rest', hsecond, hrest'⟩ := Source.next_of_instructions_cons hrest
  have hreads : Source.Reads rest [⟨"fill", []⟩] :=
    .cons hsecond rfl (.nil (Source.next_of_instructions_nil hrest') rfl)
  have hunread : (fresh "EOF\nfill\n").unread =
      "EOF\nfill\n".toList := rfl
  have hstep := step_of_isEof (m := fresh "EOF\nfill\n")
    (by rw [hunread, hfirst]; rfl)
  rw [hunread, hfirst] at hstep
  obtain ⟨later, -, hfill⟩ := step_draw
    (m := { fresh "EOF\nfill\n" with unread := rest }) hreads rfl rfl rfl
  rw [hstep, hfill, Source.next?, hfirst, Source.next?, hsecond]
  exact ⟨rfl, rfl, rfl, rfl, rfl⟩

end Machine

end PenMachine
