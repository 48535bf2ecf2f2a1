import PenMachine.Proofs.Lockstep
import PenMachine.Proofs.Reachable
import PenMachine.Terminal.Console

/-!
# The console and scripts agree

Lines that are typed at the console come to the same as a script that holds them. The console cuts
them into programs by looking at single lines, while the machine decides where a function ends as it
records. The two fit together because no recording leaves its program: a program that is more than
one line ends with the end of a function, and a line that is a program by itself starts none
(`cuts_sources`). So the machine of the console and that of the script stay in step through every
program.

A machine for which this fails needs a function that neither the console nor a script can make, but
the embedding program can: one with a `func` among its instructions, which reads on in the text when
it is called (`calling_recorder_parts_console_from_script`), or a routine, which may do to the
machine what it likes.
-/

namespace PenMachine.Terminal

open Machine

/-- Whether a text is a single line and its first word does not end the program. -/
def IsLine (line : String) : Prop :=
  '\n' ∉ line.toList ∧ (Source.line line.toList).1.head? ≠ some "EOF"

/-- A line with its newline can stand in front of any program. -/
theorem extends_line {line : String} (h : IsLine line) :
    Source.Extends (line ++ "\n").toList (firstInstruction? line).toList := by
  rw [String.toList_append]
  exact Source.extends_line h.1 h.2

theorem filterMap_cons_line (line : String) (rest : List String) :
    (line :: rest).filterMap firstInstruction? =
      (firstInstruction? line).toList ++ rest.filterMap firstInstruction? := by
  cases hfirst : firstInstruction? line <;> simp [hfirst]

/-- A script holds the first instructions of its lines, one after another. -/
theorem reads_script {lines : List String} (h : ∀ line ∈ lines, IsLine line) :
    Source.Reads ("\n".intercalate lines).toList (lines.filterMap firstInstruction?) := by
  induction lines with
  | nil =>
    rw [String.intercalate_nil]
    exact Source.reads_nil
  | cons line rest ih =>
    have hline := h line (by simp)
    have hrest := ih fun line hmem ↦ h line (by simp [hmem])
    rw [filterMap_cons_line]
    cases rest with
    | nil =>
      rw [String.intercalate_singleton, List.filterMap_nil, List.append_nil]
      exact Source.reads_line hline.1 hline.2
    | cons next rest =>
      rw [String.intercalate_cons_cons, String.toList_append]
      exact extends_line hline _ _ hrest

theorem selfContained_of_not_starts {line : String} (h : lineStartsFunction line = false) :
    SelfContained (firstInstruction? line).toList := by
  unfold lineStartsFunction lineEndsFunction at h
  cases hfirst : firstInstruction? line with
  | none => trivial
  | some i =>
    rw [hfirst] at h
    refine ⟨fun hfunc ↦ .inl ?_, trivial⟩
    simpa [hfunc] using h

/-- Behind whatever was typed, the end of a function ends every recording. -/
theorem selfContained_append_end (instructions : List Instruction) {i : Instruction}
    (h : endsFunction i = true) : SelfContained (instructions ++ [i]) := by
  have hfunc : i.is "func" = true := (Bool.and_eq_true_iff.1 h).1
  induction instructions with
  | nil => exact ⟨fun _ ↦ .inl h, trivial⟩
  | cons j rest ih => exact ⟨fun _ ↦ .inr ⟨i, by simp, hfunc⟩, ih⟩

/-- What pending lines hold. -/
def Pending.Holds : Pending → List Instruction → Prop
  | none, instructions => instructions = []
  | some text, instructions => Source.Extends text.toList instructions

theorem Pending.holds_none : Pending.Holds none [] := rfl

/-- A line is added to the pending ones, or completes a program that no recording leaves. -/
theorem Pending.type_holds {pending : Pending} {instructions : List Instruction}
    (h : pending.Holds instructions) {line : String} (hline : IsLine line) :
    match pending.type line with
    | (none, later) => later.Holds (instructions ++ (firstInstruction? line).toList)
    | (some source, later) => later = none ∧
        Source.Reads source.toList (instructions ++ (firstInstruction? line).toList) ∧
        SelfContained (instructions ++ (firstInstruction? line).toList) := by
  have hextends := extends_line hline
  cases pending with
  | none =>
    obtain rfl : instructions = [] := h
    cases hstarts : lineStartsFunction line with
    | true =>
      simp only [Pending.type, hstarts, if_true]
      exact hextends
    | false =>
      simp only [Pending.type, hstarts, Bool.false_eq_true, if_false]
      exact ⟨trivial, hextends.reads, selfContained_of_not_starts hstarts⟩
  | some text =>
    have hall : Source.Extends (text ++ line ++ "\n").toList
        (instructions ++ (firstInstruction? line).toList) := by
      rw [String.append_assoc, String.toList_append]
      exact Source.Extends.append h hextends
    cases hends : lineEndsFunction line with
    | false =>
      simp only [Pending.type, hends, Bool.false_eq_true, if_false]
      exact hall
    | true =>
      simp only [Pending.type, hends, if_true]
      refine ⟨trivial, hall.reads, ?_⟩
      rw [lineEndsFunction] at hends
      cases hfirst : firstInstruction? line with
      | none =>
        rw [hfirst] at hends
        cases hends
      | some i =>
        rw [hfirst] at hends
        exact selfContained_append_end instructions hends

/-- Programs that instructions are cut into, so that no recording leaves the program it starts
in. -/
inductive Cuts : List String → List Instruction → Prop where
  | nil : Cuts [] []
  | cons {source : String} {sources : List String} {part rest : List Instruction}
    (own : Source.Reads source.toList part) (contained : rest = [] ∨ SelfContained part)
    (later : Cuts sources rest) : Cuts (source :: sources) (part ++ rest)

/-- Whatever is pending, the console cuts what is still to come so that no recording leaves its
program. -/
theorem cuts_sources {lines : List String} (hlines : ∀ line ∈ lines, IsLine line)
    {pending : Pending} {instructions : List Instruction} (h : pending.Holds instructions) :
    Cuts (sources pending lines) (instructions ++ lines.filterMap firstInstruction?) := by
  induction lines generalizing pending instructions with
  | nil =>
    rw [List.filterMap_nil]
    cases pending with
    | none =>
      obtain rfl : instructions = [] := h
      exact .nil
    | some text => exact .cons (Source.Extends.reads h) (.inl rfl) .nil
  | cons line rest ih =>
    have hrest : ∀ line ∈ rest, IsLine line := fun line hmem ↦ hlines line (by simp [hmem])
    have htype := Pending.type_holds h (hlines line (by simp))
    rw [filterMap_cons_line, ← List.append_assoc, sources]
    rcases htyped : pending.type line with ⟨_ | source, later⟩
    · rw [htyped] at htype
      exact ih hrest htype
    · rw [htyped] at htype
      obtain ⟨rfl, hreads, hcontained⟩ := htype
      exact .cons hreads (.inr hcontained) (ih hrest Pending.holds_none)

end PenMachine.Terminal

namespace PenMachine.Machine

variable {σ : Type}

/-! ## Programs one after another -/

def aboveDebug (messages : List Message) : List Message :=
  messages.filter fun message ↦ message.level ≠ .debug

/-- What has been said above the level of debugging. -/
def audible (m : Machine σ) : List Message := aboveDebug m.transcript.lines.toList

theorem audible_of_said {m m' : Machine σ} {said : List Message} (h : Said m said m') :
    m'.audible = m.audible ++ aboveDebug said := by
  rw [audible, h]
  exact List.filter_append _ _

/-- A new program is only mentioned for debugging. -/
theorem audible_reset (m : Machine σ) (source : String) : (m.reset source).audible = m.audible := by
  have hsaid : Said m _ (m.reset source) := said_say m .debug _
  rw [audible_of_said hsaid]
  simp [aboveDebug]

theorem Matched.reset {m m' : Machine σ} (h : Matched m m') (source : String) :
    Matched m (m'.reset source) :=
  ⟨h.agree.elsewhere, h.depth, h.keepsText⟩

variable [Surface σ]

/-- Runs programs one after another, each to its end, unless the surface raises an error. -/
def runAll : List String → Machine σ → Option Error × Machine σ
  | [], m => (none, m)
  | source :: rest, m =>
    match (m.reset source).run with
    | (.error error, m) => (some error, m)
    | (.ok _, m) => runAll rest m

/-- A run that has nothing ahead changes nothing that matters. -/
theorem runWithin_of_reads_nil {m script : Machine σ} {length count total : Nat}
    (h : Source.Reads m.unread []) (hrun : runWithin length count m = (.ok total, script)) :
    Agree m script ∧ script.depth = m.depth ∧ script.audible = m.audible := by
  cases length with
  | zero =>
    cases hrun
    exact ⟨.refl m, rfl, rfl⟩
  | succ length =>
    rw [runWithin, step_of_reads_nil h] at hrun
    cases hrun
    exact ⟨(Agree.refl m).elsewhere, rfl, rfl⟩

/-- Programs run one after another do what their instructions do in one program. -/
theorem runAll_agrees {sources : List String} {instructions : List Instruction}
    (hcuts : Terminal.Cuts sources instructions) {m m' script : Machine σ} (hm : Matched m m')
    (hreads : Source.Reads m.unread instructions) {length count total : Nat}
    (hscript : runWithin length count m = (.ok total, script))
    (hlength : instructions.length ≤ length) :
    ∃ (console : Machine σ) (heard : List Message), runAll sources m' = (none, console) ∧
      Agree script console ∧ script.audible = m.audible ++ heard ∧
      console.audible = m'.audible ++ heard := by
  induction hcuts generalizing m m' length count with
  | nil =>
    obtain ⟨hsame, -, haudible⟩ := runWithin_of_reads_nil hreads hscript
    exact ⟨m', [], rfl, hsame.symm.trans hm.agree, by simp [haudible], by simp⟩
  | @cons source sources part rest own contained later ih =>
    have halong : Alongside part rest m (m'.reset source) :=
      ⟨hm.reset source, hreads, own, contained⟩
    obtain ⟨m₁, m₁', left, count₁, total', said, hleft, hroom, hrun, hend, hsaid, hsaid'⟩ :=
      halong.run hscript hlength own.length_le 0
    obtain ⟨console, heard, hall, hconsole, hheard, hheard'⟩ :=
      ih hend.toMatched hend.whole hleft hroom
    have hsource : (m'.reset source).run = (.ok total', m₁') := hrun
    refine ⟨console, aboveDebug said ++ heard, ?_, hconsole, ?_, ?_⟩
    · rw [runAll, hsource]
      exact hall
    · rw [hheard, audible_of_said hsaid, List.append_assoc]
    · rw [hheard', audible_of_said hsaid', audible_reset, List.append_assoc]

end PenMachine.Machine

namespace PenMachine.Terminal

open Machine

theorem alongside_takeMessages {part rest : List Instruction} {m m' : Machine Canvas}
    (h : Alongside part rest m m') : Alongside part rest m m'.takeMessages.2 :=
  ⟨⟨h.agree.elsewhere, h.depth, h.keepsText⟩, h.whole, h.own, h.contained⟩

/-- Showing what each step has to say does not change what the steps do. -/
theorem matched_runSteps {part : List Instruction} {m m' script : Machine Canvas}
    (h : Alongside part [] m m') {length length' count total : Nat}
    (hrun : runWithin length count m = (.ok total, script)) (hlength : part.length ≤ length)
    (hlength' : part.length ≤ length') (screen : Screen) :
    Matched script (runSteps length' m' screen).1 := by
  induction hsize : part.length using Nat.strongRecOn
    generalizing part m m' length length' count screen with
  | ind size ih =>
    cases part with
    | nil =>
      obtain ⟨hsame, hdepth, -⟩ := runWithin_of_reads_nil h.whole hrun
      have hscript : Matched script m' :=
        ⟨hsame.symm.trans h.agree, h.depth.trans hdepth.symm,
          h.keepsText.of_functions hsame.functions⟩
      cases length' with
      | zero => exact hscript
      | succ length' =>
        rw [runSteps, step_of_reads_nil h.own]
        exact ⟨hscript.agree.elsewhere, hscript.depth, hscript.keepsText⟩
    | cons i part =>
      have hwhole : (i :: part ++ []).length ≤ length := by
        rw [List.append_nil]
        exact hlength
      obtain ⟨hgoes, -, later, left, count₁, hle, hahead, hnext, halong⟩ :=
        h.step_of_run hrun hwhole
      rw [List.append_nil] at hahead
      rw [List.length_cons] at hsize hlength'
      obtain ⟨length', rfl⟩ : ∃ n, length' = n + 1 := ⟨length' - 1, by omega⟩
      have hahead' : later.length ≤ length' := by omega
      have hshown := alongside_takeMessages halong
      have hrest := ih later.length (by omega) hshown hnext hahead hahead'
      rw [runSteps]
      rcases hstep' : m'.step with ⟨outcome', m₁'⟩
      rw [hstep'] at hgoes hrest
      rcases hgoes with rfl | ⟨j, rfl⟩
      · exact hrest _ rfl
      · dsimp only
        -- Whether a value is echoed makes a difference to the screen only.
        split
        · exact hrest _ rfl
        · exact hrest _ rfl

/-- Types lines one after another and then ends the input. -/
def Console.enter (console : Console) : List String → Console
  | [] => (console.endInput.map Prod.snd).getD console
  | line :: rest => (console.type line).2.enter rest

/-- The console runs a program as the script does, and reads off what has been said in between. -/
theorem matched_runIfComplete {console : Console} {source : String} {part : List Instruction}
    (hreads : Source.Reads source.toList part) {m m₁ : Machine Canvas} {total : Nat}
    (hm : Matched m console.machine) (hrun : (m.reset source).run = (.ok total, m₁))
    (pending : Pending) :
    Matched m₁ (console.runIfComplete (some source) pending).2.machine := by
  have hmatched : Matched (m.reset source) (console.machine.reset source) :=
    ⟨hm.agree.elsewhere, hm.depth, hm.keepsText⟩
  have hwhole : Source.Reads (m.reset source).unread (part ++ []) := by
    rw [List.append_nil]
    exact hreads
  have hlength : part.length ≤ source.length + 1 := by
    rw [← String.length_toList]
    exact Nat.le_succ_of_le hreads.length_le
  exact matched_runSteps ⟨hmatched, hwhole, hreads, .inl rfl⟩ hrun hreads.length_le hlength _

theorem runAll_cons_eq_none {source : String} {sources : List String} {m e : Machine Canvas}
    (h : runAll (source :: sources) m = (none, e)) :
    ∃ total m₁, (m.reset source).run = (.ok total, m₁) ∧ runAll sources m₁ = (none, e) := by
  rw [runAll] at h
  rcases hrun : (m.reset source).run with ⟨error | total, m₁⟩
  · rw [hrun] at h
    cases h
  · rw [hrun] at h
    exact ⟨total, m₁, rfl, h⟩

/-- The console does what its programs do one after another. -/
theorem agree_enter {lines : List String} (hlines : ∀ line ∈ lines, IsLine line)
    {console : Console} {instructions : List Instruction}
    (hpending : console.pending.Holds instructions) {m e : Machine Canvas}
    (hm : Matched m console.machine)
    (hall : runAll (sources console.pending lines) m = (none, e)) :
    Agree e (console.enter lines).machine := by
  induction lines generalizing console instructions m with
  | nil =>
    rw [Console.enter, Console.endInput]
    cases hnone : console.pending with
    | none =>
      rw [hnone] at hall
      cases hall
      exact hm.agree
    | some text =>
      rw [hnone] at hall hpending
      obtain ⟨total, m₁, hrun, hend⟩ := runAll_cons_eq_none hall
      cases hend
      exact (matched_runIfComplete (Source.Extends.reads hpending) hm hrun none).agree
  | cons line rest ih =>
    have hrest : ∀ line ∈ rest, IsLine line := fun line hmem ↦ hlines line (by simp [hmem])
    have htype := Pending.type_holds hpending (hlines line (by simp))
    rw [sources] at hall
    rw [Console.enter, Console.type]
    rcases htyped : console.pending.type line with ⟨_ | source, later⟩
    · rw [htyped] at htype hall
      have hlater : Pending.Holds { console with pending := later }.pending _ := htype
      exact ih hrest hlater hm hall
    · rw [htyped] at htype hall
      obtain ⟨rfl, hreads, -⟩ := htype
      obtain ⟨total, m₁, hrun, hlater⟩ := runAll_cons_eq_none hall
      have hmatched := matched_runIfComplete hreads hm hrun none
      have hnone : Pending.Holds (console.runIfComplete (some source) none).2.pending [] := rfl
      exact ih hrest hnone hmatched hlater

theorem isLine_examples :
    ∀ line ∈ ["func f", "fill", "func end", "strk", "call g"], IsLine line := by
  have hwords : (Source.line "func f".toList).1 = ["func", "f"] ∧
      (Source.line "fill".toList).1 = ["fill"] ∧
      (Source.line "func end".toList).1 = ["func", "end"] ∧
      (Source.line "strk".toList).1 = ["strk"] ∧
      (Source.line "call g".toList).1 = ["call", "g"] := by
    decide +kernel
  obtain ⟨hfunc, hfill, hend, hstroke, hcall⟩ := hwords
  intro line hline
  simp only [List.mem_cons, List.not_mem_nil, or_false] at hline
  rcases hline with rfl | rfl | rfl | rfl | rfl
  · exact ⟨by decide, by rw [hfunc]; decide⟩
  · exact ⟨by decide, by rw [hfill]; decide⟩
  · exact ⟨by decide, by rw [hend]; decide⟩
  · exact ⟨by decide, by rw [hstroke]; decide⟩
  · exact ⟨by decide, by rw [hcall]; decide⟩

theorem refusal?_of_room {canvas : Canvas} (h : canvas.commands.size < Canvas.capacity)
    (command : Command) : Surface.refusal? canvas command = none := by
  simp [Surface.refusal?, Canvas.refusal?, h]

theorem run_functionAndStroke {m : Machine Canvas}
    (hreads : Source.Reads m.unread
      [⟨"func", ["f"]⟩, ⟨"fill", []⟩, ⟨"func", ["end"]⟩, ⟨"strk", []⟩])
    (hroom : m.surface.commands.size < Canvas.capacity) : ∃ script, m.run = (.ok 2, script) := by
  have hplan : planRecord "f" [] = .ok (.record "f" []) := rfl
  have hcut : cutBody [⟨"fill", []⟩, ⟨"func", ["end"]⟩, ⟨"strk", []⟩] =
      (some [⟨"fill", []⟩], [⟨"strk", []⟩]) := by
    decide
  have hstroke : Statement.ofInstruction ⟨"strk", []⟩ = .ok .stroke := rfl
  obtain ⟨rest, hrest, hfunc⟩ := step_func hreads hplan hcut
  obtain ⟨later, hlater, hdraw⟩ := step_draw
    (m := { m with unread := rest }.define (.recorded "f" [] [⟨"fill", []⟩])) hrest hstroke rfl
    (refusal?_of_room hroom _)
  have hlength := hreads.length_le
  obtain ⟨n, hn⟩ : ∃ n, m.unread.length = n + 3 :=
    ⟨m.unread.length - 3, by simp only [List.length_cons] at hlength; omega⟩
  rw [run, hn, runWithin, hfunc]
  simp only
  rw [runWithin, hdraw]
  simp only
  rw [runWithin, step_of_reads_nil hlater]
  exact ⟨_, rfl⟩

/-- The console and scripts agree. Take a machine that has no routines but its own, and no functions
with a `func` among their instructions, and lines that do not start with the word `EOF`. If the
script of these lines runs to its end without an error of the surface, so do the programs that the
console cuts the lines into. The machine of the script and that of the console then have the same
registers, variables, functions, surface and random numbers, and have said the same above the level
of debugging. -/
theorem console_agrees_with_script {m : Machine Canvas} (hm : m.KeepsText) {lines : List String}
    (hlines : ∀ line ∈ lines,
      '\n' ∉ line.toList ∧ (Source.line line.toList).1.head? ≠ some "EOF")
    {count : Nat} {script : Machine Canvas}
    (hscript : (m.reset ("\n".intercalate lines)).run = (.ok count, script)) :
    ∃ console : Machine Canvas,
      runAll (sources none lines) m = (none, console) ∧ Agree script console ∧
      console.audible = script.audible ∧
      ∀ verbose : Bool, Agree script ((Console.mk m verbose none).enter lines).machine := by
  have hreads : Source.Reads (m.reset ("\n".intercalate lines)).unread
      (lines.filterMap firstInstruction?) := reads_script hlines
  have hself : Matched m m := ⟨.refl m, rfl, hm⟩
  have hmatched : Matched (m.reset ("\n".intercalate lines)) m :=
    ⟨(Agree.refl m).elsewhere, rfl, hm⟩
  obtain ⟨console, heard, hall, hagree, hheard, hheard'⟩ :=
    runAll_agrees (cuts_sources hlines Pending.holds_none) hmatched hreads hscript hreads.length_le
  refine ⟨console, hall, hagree, ?_, fun verbose ↦ ?_⟩
  · rw [hheard', hheard, audible_reset]
  · have hpending : Pending.Holds (Console.mk m verbose none).pending [] := rfl
    exact hagree.trans (agree_enter hlines hpending hself hall)

/-- A function and a line behind it, typed and run as a script. -/
theorem functionAndStroke_agree :
    (fresh "").KeepsText ∧
    (∀ line ∈ ["func f", "fill", "func end", "strk"],
      '\n' ∉ line.toList ∧ (Source.line line.toList).1.head? ≠ some "EOF") ∧
    ∃ script console,
      ((fresh "").reset ("\n".intercalate ["func f", "fill", "func end", "strk"])).run =
        (.ok 2, script) ∧
      runAll (sources none ["func f", "fill", "func end", "strk"]) (fresh "") =
        (none, console) ∧
      Agree script console ∧ console.audible = script.audible := by
  have hlines : ∀ line ∈ ["func f", "fill", "func end", "strk"], IsLine line :=
    fun line hline ↦ isLine_examples line (List.mem_append_left ["call g"] hline)
  have hinstructions : ["func f", "fill", "func end", "strk"].filterMap firstInstruction? =
      [⟨"func", ["f"]⟩, ⟨"fill", []⟩, ⟨"func", ["end"]⟩, ⟨"strk", []⟩] := by
    decide +kernel
  have hreads := reads_script hlines
  rw [hinstructions] at hreads
  obtain ⟨script, hscript⟩ := run_functionAndStroke (m := (fresh "").reset
    ("\n".intercalate ["func f", "fill", "func end", "strk"])) hreads (by decide)
  have hkeeps : (fresh "").KeepsText := (fromSource_fresh "").keepsText
  obtain ⟨console, hall, hagree, haudible, -⟩ := console_agrees_with_script hkeeps hlines hscript
  exact ⟨hkeeps, hlines, script, console, hscript, hall, hagree, haudible⟩

/-- A machine whose function `g` records a function when it is called. -/
def recorder : Machine Canvas := (fresh "").define (.recorded "g" [] [⟨"func", ["h"]⟩])

theorem recorder_g : recorder.functions["g"]? = some (.recorded "g" [] [⟨"func", ["h"]⟩]) :=
  getElem?_define_self (fresh "") _

/-- Calling `g` records what is ahead in the text. -/
theorem step_callRecorder {m : Machine Canvas}
    (hg : m.functions["g"]? = some (.recorded "g" [] [⟨"func", ["h"]⟩])) (hdepth : m.depth = 0)
    {instructions body later : List Instruction}
    (hreads : Source.Reads m.unread (⟨"call", ["g"]⟩ :: instructions))
    (hcut : cutBody instructions = (some body, later)) :
    ∃ rest, Source.Reads rest later ∧ m.step = (.executed ⟨"call", ["g"]⟩,
      { m with unread := rest }.define (.recorded "h" [] body)) := by
  have hroom : 255 + 1 = maxDepth - m.depth := by rw [hdepth]; rfl
  have hstatement : Statement.ofInstruction ⟨"call", ["g"]⟩ = .ok (.call "g" []) := rfl
  have hplan : m.plan (.call "g" []) = .ok (.invoke (.recorded "g" [] [⟨"func", ["h"]⟩]) []) :=
    plan_call hg rfl
  have hname : planRecord "h" [] = .ok (.record "h" []) := rfl
  obtain ⟨heof, shorter, text, htext, hstep⟩ := step_of_reads_cons hreads hroom
  have hsame : Agree m { m with unread := text } := (Agree.refl m).elsewhere
  obtain ⟨rest, hrest, hfunc⟩ := interpretWithin_func
    (m := { m with unread := text, depth := m.depth + 1 }) htext hname hcut
  have hrun : runBody (interpretWithin (stepWithin shorter) 255) [⟨"func", ["h"]⟩]
      { m with unread := text, depth := m.depth + 1 } =
        (none, { m with unread := rest, depth := m.depth + 1 }.define (.recorded "h" [] body)) := by
    rw [runBody, hfunc]
    rfl
  refine ⟨rest, hrest, ?_⟩
  rw [hstep, interpretWithin, interpretWith_performed heof hstatement
    ((plan_congr hsame _).trans hplan), perform, invoke]
  simp only [Function.recorded, hrun]
  rfl

theorem lines_callAndFill : ∀ line ∈ ["call g", "fill"], IsLine line := by
  intro line hline
  apply isLine_examples
  simp only [List.mem_cons, List.not_mem_nil, or_false] at hline ⊢
  rcases hline with rfl | rfl <;> simp

theorem run_callAndFill : ∃ script,
    (recorder.reset ("\n".intercalate ["call g", "fill"])).run = (.ok 1, script) ∧
      script.surface.commands = #[] := by
  have hinstructions : ["call g", "fill"].filterMap firstInstruction? =
      [⟨"call", ["g"]⟩, ⟨"fill", []⟩] := by
    decide +kernel
  have hreads := reads_script lines_callAndFill
  rw [hinstructions] at hreads
  have hcut : cutBody [⟨"fill", []⟩] = (some [⟨"fill", []⟩], []) := by decide
  obtain ⟨rest, hrest, hstep⟩ := step_callRecorder
    (m := recorder.reset ("\n".intercalate ["call g", "fill"])) recorder_g rfl hreads hcut
  exact ⟨_, run_of_last_step hstep hrest hreads.length_le, rfl⟩

theorem run_fill {m : Machine Canvas} (hroom : m.surface.commands.size < Canvas.capacity) :
    ∃ m₁, (m.reset "fill\n").run = (.ok 1, m₁) ∧ m₁.surface = m.surface.record .fill := by
  have hfill : firstInstruction? "fill" = some ⟨"fill", []⟩ := by decide +kernel
  have hstatement : Statement.ofInstruction ⟨"fill", []⟩ = .ok .fill := rfl
  have hreads := (extends_line (lines_callAndFill "fill" (by simp))).reads
  rw [hfill] at hreads
  obtain ⟨rest, hrest, hstep⟩ := step_draw (m := m.reset "fill\n") hreads hstatement rfl
    (refusal?_of_room hroom _)
  have hlength : 2 ≤ "fill\n".toList.length := by decide
  exact ⟨_, run_of_last_step hstep hrest hlength,
    Canvas.draw_of_refusal?_eq_none (refusal?_of_room hroom .fill) _⟩

theorem run_callRecorder : ∃ m₁,
    (recorder.reset "call g\n").run = (.ok 1, m₁) ∧ m₁.surface = .empty 640 480 := by
  have hcall : firstInstruction? "call g" = some ⟨"call", ["g"]⟩ := by decide +kernel
  have hcut : cutBody [] = (some [], []) := rfl
  have hreads := (extends_line (lines_callAndFill "call g" (by simp))).reads
  rw [hcall] at hreads
  obtain ⟨rest, hrest, hstep⟩ := step_callRecorder (m := recorder.reset "call g\n") recorder_g rfl
    hreads hcut
  exact ⟨_, run_of_last_step hstep hrest (by decide), rfl⟩

theorem runAll_callAndFill : ∃ console,
    runAll (sources none ["call g", "fill"]) recorder = (none, console) ∧
      console.surface.commands = #[.fill] := by
  have hsources : sources none ["call g", "fill"] = ["call g\n", "fill\n"] := by decide +kernel
  obtain ⟨m₁, hcall, hempty⟩ := run_callRecorder
  obtain ⟨console, hfill, hdrawn⟩ := run_fill (m := m₁) (by rw [hempty]; decide)
  refine ⟨console, ?_, ?_⟩
  · rw [hsources, runAll, hcall]
    simp only
    rw [runAll, hfill]
    rfl
  · rw [hdrawn, hempty]
    rfl

/-- Behind a function that records when it is called, the console and a script part ways: what a
script records, the console runs. -/
theorem calling_recorder_parts_console_from_script :
    (∀ line ∈ ["call g", "fill"],
      '\n' ∉ line.toList ∧ (Source.line line.toList).1.head? ≠ some "EOF") ∧
    ∃ script console,
      (recorder.reset ("\n".intercalate ["call g", "fill"])).run = (.ok 1, script) ∧
      runAll (sources none ["call g", "fill"]) recorder = (none, console) ∧
      script.surface.commands = #[] ∧ console.surface.commands = #[.fill] ∧
      ¬ Agree script console := by
  obtain ⟨script, hscript, hempty⟩ := run_callAndFill
  obtain ⟨console, hconsole, hdrawn⟩ := runAll_callAndFill
  refine ⟨lines_callAndFill, script, console, hscript, hconsole, hempty, hdrawn, fun hagree ↦ ?_⟩
  rw [hagree.surface, hempty] at hdrawn
  cases hdrawn

end PenMachine.Terminal
