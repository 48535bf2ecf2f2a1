import PenMachine.Proofs.EndOfText
import PenMachine.Proofs.Termination
import PenMachine.Terminal.Console
import PenMachine.Terminal.Folder

/-!
# Output by lines

Whatever is written to the terminal is complete lines, one below the other. The screen leaves the
line of the last message open and closes it late, when something else is to be written, so its text
alone does not show this; what counts is its text once the last line is closed. Each way to write
adds to that text just the lines it is to show (`Screen.Adds`): a message that is visible is one
line, a hidden one is none, and no line is added in between.

So the output of a script is the lines of its messages and of the summary, and what the console
prints between two prompts is the lines of `Shows`, which says step by step what there is to be seen
(`output_is_complete_lines`).
-/

namespace PenMachine

/-- Whether a program goes on behind a step. -/
def Outcome.GoesOn : Outcome → Prop
  | .executed _ | .failed => True
  | .eof | .fatal _ => False

namespace Machine

variable {σ : Type} [Surface σ] {m : Machine σ}

theorem afterSteps_step (m : Machine σ) (n : Nat) :
    m.step.2.afterSteps n = m.afterSteps (n + 1) := by
  induction n with
  | zero => rfl
  | succ n ih =>
    calc (m.step.2.afterSteps n).step.2
        = (m.afterSteps (n + 1)).step.2 := by rw [ih]
      _ = m.afterSteps (n + 1 + 1) := rfl

/-- A run that follows the rules takes some number of steps that go on, and one behind them that is
the end of the program or ends in an error. It counts the former. -/
theorem Runs.exists_last {count n : Nat} {result : Except Error Nat} {m' : Machine σ}
    (h : Runs count m n result m') (hm : m.Stepless) :
    ∃ last, (∀ k < last, (m.afterSteps k).step.1.GoesOn) ∧ m' = m.afterSteps (last + 1) ∧
      ((m.afterSteps last).step.1 = .eof ∧ result = .ok (count + last) ∨
        ∃ error, (m.afterSteps last).step.1 = .fatal error ∧ result = .error error) := by
  induction h with
  | eof step =>
    have hstep := (steps_iff hm).1 step
    exact ⟨0, by simp, by simp [afterSteps, hstep], .inl ⟨by simp [afterSteps, hstep], rfl⟩⟩
  | @fatal count m m' error step =>
    have hstep := (steps_iff hm).1 step
    exact ⟨0, by simp, by simp [afterSteps, hstep],
      .inr ⟨error, by simp [afterSteps, hstep], rfl⟩⟩
  | @next count n m m₁ m' outcome result step more alive rest ih =>
    have hstep := (steps_iff hm).1 step
    have hstepless := stepless_step hm
    rw [hstep] at hstepless
    obtain ⟨last, hbefore, hmachine, hlast⟩ := ih hstepless
    have hafter (k : Nat) : m₁.afterSteps k = m.afterSteps (k + 1) := by
      rw [← afterSteps_step, hstep]
    simp only [hafter] at hbefore hmachine hlast
    refine ⟨last + 1, fun k hk ↦ ?_, hmachine, ?_⟩
    · cases k with
      | zero =>
        rw [afterSteps, hstep]
        cases outcome with
        | eof => exact absurd rfl more
        | fatal error => cases alive
        | executed | failed => trivial
      | succ k => exact hbefore k (Nat.lt_of_succ_lt_succ hk)
    · rwa [Nat.add_right_comm, Nat.add_assoc] at hlast

end Machine

end PenMachine

namespace PenMachine.Terminal

open Machine

/-- Lines one below the other, each of them closed. -/
def completeLines : List String → String
  | [] => ""
  | line :: rest => line ++ "\n" ++ completeLines rest

theorem completeLines_append (lines rest : List String) :
    completeLines (lines ++ rest) = completeLines lines ++ completeLines rest := by
  induction lines with
  | nil => simp [completeLines]
  | cons line lines ih => simp [completeLines, ih, String.append_assoc]

/-- Whether a message is to be seen: on a verbose screen every one, and otherwise those above the
level of debugging. -/
def isVisible (verbose : Bool) (message : Message) : Bool :=
  verbose || Level.debug.rank < message.level.rank

/-- The lines of what a machine says. -/
def messageLines (verbose : Bool) (messages : List Message) : List String :=
  (messages.filter (isVisible verbose)).map fun message ↦ decorate message none false

namespace Screen

/-- Whether a screen, with its last line closed, has just these lines more than another. -/
def Adds (screen : Screen) (lines : List String) (screen' : Screen) : Prop :=
  screen'.endLine = ⟨screen.verbose, false, screen.endLine.text ++ completeLines lines⟩

variable {screen screen₁ screen' : Screen} {lines rest : List String}

theorem verbose_endLine (screen : Screen) : screen.endLine.verbose = screen.verbose := by
  unfold endLine
  split
  · rfl
  · rfl

theorem lineOpen_endLine (screen : Screen) : screen.endLine.lineOpen = false := by
  unfold endLine
  split
  · rfl
  · rename_i hopen
    simpa using hopen

theorem endLine_endLine (screen : Screen) : screen.endLine.endLine = screen.endLine := by
  rw [endLine, lineOpen_endLine, if_neg Bool.false_ne_true]

theorem adds_nil (screen : Screen) : screen.Adds [] screen := by
  have hverbose := verbose_endLine screen
  have hclosed := lineOpen_endLine screen
  unfold Adds
  rcases heq : screen.endLine with ⟨verbose, lineOpen, text⟩
  simp_all [completeLines]

namespace Adds

theorem verbose (h : screen.Adds lines screen') : screen'.verbose = screen.verbose := by
  rw [← verbose_endLine screen', h]

theorem text (h : screen.Adds lines screen') :
    screen'.endLine.text = screen.endLine.text ++ completeLines lines := by
  rw [h]

theorem trans (h : screen.Adds lines screen₁) (h' : screen₁.Adds rest screen') :
    screen.Adds (lines ++ rest) screen' := by
  rw [Adds, h', h.verbose, h.text, completeLines_append, String.append_assoc]

/-- Closing the last line adds none. -/
theorem endLine (h : screen.Adds lines screen') : screen.Adds lines screen'.endLine := by
  rw [Adds, endLine_endLine]
  exact h

end Adds

/-- Opening a line closes the one before it and adds the one that is opened. -/
theorem adds_openLine (screen : Screen) (line : String) :
    screen.Adds [line] (screen.openLine line) := by
  have hopen : (screen.openLine line).endLine =
      ⟨screen.endLine.verbose, false, screen.endLine.text ++ line ++ "\n"⟩ := rfl
  rw [Adds, hopen, verbose_endLine, completeLines, completeLines, String.append_empty,
    String.append_assoc]

/-- A message starts a line of its own, or shows nothing. -/
theorem adds_print (screen : Screen) (message : Message) (paint : Option Paint) (raw : Bool) :
    screen.Adds (if isVisible screen.verbose message then [decorate message paint raw] else [])
      (screen.print message paint raw) := by
  have hhidden :
      (message.level = .debug && !screen.verbose) = !isVisible screen.verbose message := by
    unfold isVisible
    cases message.level <;> cases screen.verbose <;> rfl
  rw [print, hhidden]
  cases isVisible screen.verbose message with
  | true => exact adds_openLine screen _
  | false => exact adds_nil screen

theorem adds_printAll (screen : Screen) (messages : Array Message) :
    screen.Adds (messageLines screen.verbose messages.toList) (screen.printAll messages) := by
  rw [printAll, ← Array.foldl_toList]
  induction messages.toList generalizing screen with
  | nil => exact adds_nil screen
  | cons message rest ih =>
    have hfirst := adds_print screen message none false
    have hrest := ih (screen.print message none false)
    rw [hfirst.verbose] at hrest
    have hlines : messageLines screen.verbose (message :: rest) =
        (if isVisible screen.verbose message then [decorate message none false] else []) ++
          messageLines screen.verbose rest := by
      rw [messageLines, List.filter_cons]
      split
      · rfl
      · rfl
    rw [hlines, List.foldl_cons]
    exact hfirst.trans hrest

theorem adds_writeLine (screen : Screen) (line : String) :
    screen.Adds [line] (writeLine screen line) :=
  (adds_openLine screen line).endLine

end Screen

/-- The machine of a script has its own functions only. -/
theorem stepless_start (options : Options) (seed : UInt64) (source : String) :
    ((newMachine options seed).reset source).Stepless :=
  (fromSource_initial "" (Canvas.empty options.width options.height) seed).stepless

/-- A script whose run ends without an error writes what the machine has said and then the
summary. -/
theorem output_of_run_ok {options : Options} {seed : UInt64} {source : String} {count : Nat}
    {m : Machine Canvas} (h : ((newMachine options seed).reset source).run = (.ok count, m)) :
    (runSource options seed source).output =
      completeLines (messageLines options.verbose m.transcript.lines.toList ++
        [decorate (summary count) (some .green) false]) := by
  have hsaid := (Screen.blank options.verbose).adds_printAll m.transcript.lines
  have hsummary := ((Screen.blank options.verbose).printAll m.transcript.lines).adds_print
    (summary count) (some .green) false
  have hvisible (verbose : Bool) : isVisible verbose (summary count) = true := by
    cases verbose <;> rfl
  rw [hvisible, if_pos rfl] at hsummary
  simp only [runSource, h]
  rw [(hsaid.trans hsummary).text]
  exact String.empty_append

/-- One whose run ends in an error writes what the machine has said until then, and saves
nothing. -/
theorem output_of_run_error {options : Options} {seed : UInt64} {source : String} {error : Error}
    {m : Machine Canvas} (h : ((newMachine options seed).reset source).run = (.error error, m)) :
    (runSource options seed source).output =
        completeLines (messageLines options.verbose m.transcript.lines.toList) ∧
      (runSource options seed source).save = none := by
  have hsaid := (Screen.blank options.verbose).adds_printAll m.transcript.lines
  simp only [runSource, h, Report.fail, and_true]
  rw [hsaid.text]
  exact String.empty_append

/-- The lines of what a machine has said since it was last asked. -/
def saidLines (verbose : Bool) (m : Machine Canvas) : List String :=
  messageLines verbose m.takeMessages.1.toList

/-- The line that echoes the value of an instruction, if it has one. -/
def echoLines (m : Machine Canvas) (i : Instruction) : List String :=
  (feedback m i).toList.map fun value ↦ "  " ++ styled boldCode ("= " ++ value)

/-- What is to be seen of a program step by step, and the machine at its end. Behind what a step
says comes the echo of its value, or the error that ends the run. -/
inductive Shows (verbose : Bool) : Machine Canvas → List String → Machine Canvas → Prop where
  | eof {m m₁ : Machine Canvas} (step : m.step = (.eof, m₁)) :
    Shows verbose m (saidLines verbose m₁) m₁.takeMessages.2
  | fatal {m m₁ : Machine Canvas} {error : Error} (step : m.step = (.fatal error, m₁)) :
    Shows verbose m (saidLines verbose m₁ ++ [styled boldCode error.message]) m₁.takeMessages.2
  | failed {m m₁ m' : Machine Canvas} {lines : List String} (step : m.step = (.failed, m₁))
    (rest : Shows verbose m₁.takeMessages.2 lines m') :
    Shows verbose m (saidLines verbose m₁ ++ lines) m'
  | executed {m m₁ m' : Machine Canvas} {i : Instruction} {lines : List String}
    (step : m.step = (.executed i, m₁)) (rest : Shows verbose m₁.takeMessages.2 lines m') :
    Shows verbose m (saidLines verbose m₁ ++ echoLines m₁ i ++ lines) m'

/-- The screen with the value of an instruction echoed, if it has one. -/
def showEcho (screen : Screen) (m : Machine Canvas) (i : Instruction) : Screen :=
  match feedback m i with
  | some value => writeLine screen ("  " ++ styled boldCode ("= " ++ value))
  | none => screen

theorem adds_showEcho (screen : Screen) (m : Machine Canvas) (i : Instruction) :
    screen.Adds (echoLines m i) (showEcho screen m i) := by
  unfold echoLines showEcho
  cases feedback m i with
  | some value => exact screen.adds_writeLine _
  | none => exact screen.adds_nil

/-- After each step comes what it has said, and then the echo. -/
theorem runSteps_executed {m m₁ : Machine Canvas} {i : Instruction}
    (step : m.step = (.executed i, m₁)) (length : Nat) (screen : Screen) :
    runSteps (length + 1) m screen = runSteps length m₁.takeMessages.2
      (showEcho (screen.printAll m₁.takeMessages.1) m₁ i) := by
  have hfeedback : feedback m₁.takeMessages.2 i = feedback m₁ i := rfl
  rw [runSteps, step]
  simp only [hfeedback, showEcho]
  cases feedback m₁ i with
  | some value => rfl
  | none => rfl

/-- Given more steps than the text has characters, the console shows a program to its end. -/
theorem shows_runSteps {length : Nat} {m : Machine Canvas} (h : m.unread.length < length)
    (screen : Screen) :
    ∃ lines, Shows screen.verbose m lines (runSteps length m screen).1 ∧
      screen.Adds lines (runSteps length m screen).2 := by
  induction length generalizing m screen with
  | zero => cases h
  | succ length ih =>
    rcases hstep : m.step with ⟨outcome, m₁⟩
    have hsaid := screen.adds_printAll m₁.takeMessages.1
    have hshorter (hmore : outcome ≠ .eof) : m₁.takeMessages.2.unread.length < length := by
      have hlt := length_step_lt (m := m) (by rwa [hstep])
      rw [hstep] at hlt
      exact Nat.lt_of_lt_of_le hlt (Nat.le_of_lt_succ h)
    cases outcome with
    | eof =>
      rw [runSteps, hstep]
      exact ⟨_, .eof hstep, hsaid⟩
    | fatal error =>
      rw [runSteps, hstep]
      exact ⟨_, .fatal hstep, hsaid.trans (Screen.adds_writeLine _ _)⟩
    | failed =>
      obtain ⟨lines, hshows, hadds⟩ := ih (hshorter (by simp)) (screen.printAll m₁.takeMessages.1)
      rw [hsaid.verbose] at hshows
      rw [runSteps, hstep]
      exact ⟨_, .failed hstep hshows, hsaid.trans hadds⟩
    | executed i =>
      have hechoed := hsaid.trans (adds_showEcho _ m₁ i)
      obtain ⟨lines, hshows, hadds⟩ := ih (hshorter (by simp))
        (showEcho (screen.printAll m₁.takeMessages.1) m₁ i)
      rw [hechoed.verbose] at hshows
      rw [runSteps_executed hstep]
      exact ⟨_, .executed hstep hshows, hechoed.trans hadds⟩

/-- A program is shown in complete lines, and the last line is closed behind it. -/
theorem shows_runProgram (m : Machine Canvas) (screen : Screen) (source : String) :
    ∃ lines machine, Shows screen.verbose (m.reset source) lines machine ∧
      runProgram m screen source =
        (machine, ⟨screen.verbose, false, screen.endLine.text ++ completeLines lines⟩) := by
  have hlength : (m.reset source).unread.length < source.length + 1 :=
    Nat.lt_succ_of_le (Nat.le_of_eq String.length_toList)
  obtain ⟨lines, hshows, hadds⟩ := shows_runSteps hlength screen
  exact ⟨lines, _, hshows, Prod.ext rfl hadds⟩

/-- A program that is run in the console prints what is to be seen of it, and nothing else. -/
theorem shows_runIfComplete (console : Console) (source : String) (pending : Pending) :
    ∃ lines machine, Shows console.verbose (console.machine.reset source) lines machine ∧
      console.runIfComplete (some source) pending =
        (completeLines lines, { console with machine, pending }) := by
  obtain ⟨lines, machine, hshows, hrun⟩ :=
    shows_runProgram console.machine (.blank console.verbose) source
  refine ⟨lines, machine, hshows, ?_⟩
  simp only [Console.runIfComplete, hrun]
  exact Prod.ext String.empty_append rfl

/-- All output is complete lines. A script takes some number of steps that go on, and a last one. If
that is the end of the program, the output is the visible messages of the whole run, each on a line
of its own, and a green line with the number of the steps before. If it ends in an error, the output
is the visible messages until then, and no drawing is saved in the folder or asked to be.

At the console, a line that completes no program prints nothing. Otherwise what is printed until the
next prompt is the lines that there are to be seen of the program, and so it is when the end of the
input completes it. Whatever the screen was like before, its last line is then closed. -/
theorem output_is_complete_lines :
    (∀ (options : Options) (seed : UInt64) (source : String),
      let start := (newMachine options seed).reset source
      let report := runSource options seed source
      ∃ n, (∀ k < n, (start.afterSteps k).step.1.GoesOn) ∧
        let messages := (start.afterSteps (n + 1)).transcript.lines.toList
        ((start.afterSteps n).step.1 = .eof ∧
            report.output = completeLines (messageLines options.verbose messages ++
              [decorate (summary n) (some .green) false]) ∨
          ∃ error, (start.afterSteps n).step.1 = .fatal error ∧
            report.output = completeLines (messageLines options.verbose messages) ∧
            report.save = none ∧ ∀ folder : Folder, (folder.save report).2 = folder)) ∧
    (∀ (console : Console) (line : String),
      match console.pending.type line with
      | (none, pending) => console.type line = (completeLines [], { console with pending })
      | (some source, pending) =>
        ∃ lines machine, Shows console.verbose (console.machine.reset source) lines machine ∧
          console.type line = (completeLines lines, { console with machine, pending })) ∧
    (∀ console : Console,
      match console.pending with
      | none => console.endInput = none
      | some source =>
        ∃ lines machine, Shows console.verbose (console.machine.reset source) lines machine ∧
          console.endInput =
            some (completeLines lines, { console with machine, pending := none })) ∧
    ∀ (m : Machine Canvas) (screen : Screen) (source : String),
      ∃ lines machine, Shows screen.verbose (m.reset source) lines machine ∧
        runProgram m screen source =
          (machine, ⟨screen.verbose, false, screen.endLine.text ++ completeLines lines⟩) := by
  refine ⟨fun options seed source ↦ ?_, fun console line ↦ ?_, fun console ↦ ?_,
    shows_runProgram⟩
  · intro start report
    have hstepless := stepless_start options seed source
    obtain ⟨_, hruns⟩ := runs_runWithin hstepless (Nat.le_refl _) 0
    obtain ⟨n, hbefore, hmachine, hlast⟩ := hruns.exists_last hstepless
    refine ⟨n, hbefore, ?_⟩
    rcases hlast with ⟨heof, hresult⟩ | ⟨error, hfatal, hresult⟩
    · rw [Nat.zero_add] at hresult
      have hrun : start.run = (.ok n, start.afterSteps (n + 1)) := Prod.ext hresult hmachine
      exact .inl ⟨heof, output_of_run_ok hrun⟩
    · have hrun : start.run = (.error error, start.afterSteps (n + 1)) := Prod.ext hresult hmachine
      obtain ⟨houtput, hsave⟩ := output_of_run_error hrun
      refine .inr ⟨error, hfatal, houtput, hsave, fun folder ↦ ?_⟩
      rw [Folder.save, hsave]
  · unfold Console.type
    rcases console.pending.type line with ⟨_ | source, pending⟩
    · rfl
    · exact shows_runIfComplete console source pending
  · unfold Console.endInput
    cases hpending : console.pending with
    | none => rfl
    | some source =>
      obtain ⟨lines, machine, hshows, hrun⟩ := shows_runIfComplete console source none
      exact ⟨lines, machine, hshows, by rw [Option.map_some, hrun]⟩

/-- The message for debugging is hidden, and leaves no blank line where it would be. -/
example : (runSource ⟨none, 640, 480, none, none, false⟩ 7 "ret x").output =
    completeLines ["\x1b[31m[ERROR]: Numeric value expected\x1b[0m",
      "\x1b[32m[INFO]: Executed 1 instructions.\x1b[0m"] := by
  decide +kernel

end PenMachine.Terminal
