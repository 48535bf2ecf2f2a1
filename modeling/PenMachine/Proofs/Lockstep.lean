import PenMachine.Proofs.Congruence
import PenMachine.Proofs.Reading

/-!
# Two machines in step

A machine that runs one part of a program and a machine that has the whole of it ahead stay in step
as long as they are in that part, provided that no recording reaches past its end
(`Machine.SelfContained`). They take the same steps with the same outcomes, say the same and agree
after each step (`Machine.Alongside.step`). So when the whole program runs to its end, the part does
too, and the other machine is then at the instructions behind it (`Machine.Alongside.run`).
-/

namespace PenMachine

variable {σ : Type}

/-- Whether a machine has said just these messages more than another. -/
def Said (m : Machine σ) (said : List Message) (m' : Machine σ) : Prop :=
  m'.transcript.lines.toList = m.transcript.lines.toList ++ said

theorem Said.refl (m : Machine σ) : Said m [] m := (List.append_nil _).symm

theorem Said.trans {m m₁ m' : Machine σ} {said said' : List Message} (h : Said m said m₁)
    (h' : Said m₁ said' m') : Said m (said ++ said') m' := by
  rw [Said, h', h, List.append_assoc]

theorem said_say (m : Machine σ) (level : Level) (text : String) :
    Said m [⟨level, text⟩] (m.say level text) :=
  Array.toList_push

def Event.message? : Event → Option Message
  | .say level text => some ⟨level, text⟩
  | _ => none

theorem Trace.said [Surface σ] {m m' : Machine σ} {events : List Event} (h : Trace m events m') :
    Said m (events.filterMap Event.message?) m' := by
  induction h with
  | nil m => exact .refl m
  | @cons m m' e events _ _ ih =>
    cases e with
    | say level text => exact (said_say m level text).trans ih
    | _ => exact ih

namespace Machine

theorem said_refuse (m : Machine σ) (operation : String) (fault : Fault) :
    Said m [⟨fault.level, fault.text⟩,
      ⟨.debug, "Assertion failed in '" ++ operation ++ "': " ++ fault.text⟩]
      (m.refuse operation fault) :=
  (said_say m fault.level fault.text).trans (said_say _ _ _)

theorem agree_say {m m' : Machine σ} (h : Agree m m') (level : Level) (text : String) :
    Agree (m.say level text) (m'.say level text) :=
  h.elsewhere

theorem agree_refuse {m m' : Machine σ} (h : Agree m m') (operation : String) (fault : Fault) :
    Agree (m.refuse operation fault) (m'.refuse operation fault) :=
  agree_say (agree_say h _ _) _ _

/-- What is recorded holds no `func`. -/
theorem KeepsText.apply [Surface σ] {m : Machine σ} {e : Event} (allowed : e.Allowed m)
    (h : m.KeepsText) : (e.apply m).KeepsText := by
  intro key f hf
  rcases Event.function_cases hf with hold | ⟨argNames, body, rest, rfl, rfl⟩
  · exact h key f hold
  · intro i hi
    simpa using (plain_of_recordBody allowed hi).imp_right And.left

/-- No event adds a function that reads on, since recording stops at a `func`. -/
theorem KeepsText.trace [Surface σ] {m m' : Machine σ} {events : List Event} (h : m.KeepsText)
    (ht : Trace m events m') : m'.KeepsText :=
  ht.invariant apply h

theorem executedUnless_ne_eof (i : Instruction) (r : Option Error × Machine σ) :
    (executedUnless i r).1 ≠ .eof := by
  obtain ⟨_ | error, m₁⟩ := r <;> simp [executedUnless]

section Step

variable [Surface σ] {m : Machine σ}

/-- At the end of the text a step does nothing but use it up. -/
theorem step_of_reads_nil (h : Source.Reads m.unread []) :
    m.step = (.eof, { m with unread := [] }) := by
  rw [step]
  cases htext : m.unread with
  | nil => rw [stepWithin, ← htext]
  | cons c shorter =>
    cases h with
    | nil next eof =>
      obtain ⟨perform?, hwith⟩ := exists_interpretWith
        (stepWithin shorter : Machine σ → Outcome × Machine σ) (maxDepth - m.depth)
      rw [stepWithin, next]
      simp only [hwith]
      exact interpretWith_eof eof

/-- A step carries out the first instruction ahead, with the others left. -/
theorem step_of_reads_cons {i : Instruction} {instructions : List Instruction}
    (h : Source.Reads m.unread (i :: instructions)) {room : Nat}
    (hroom : room = maxDepth - m.depth) :
    i.isEof = false ∧ ∃ (shorter rest : List Char), Source.Reads rest instructions ∧
      m.step = interpretWithin (stepWithin shorter) room i { m with unread := rest } := by
  cases h with
  | @cons _ rest _ _ next more tail =>
    refine ⟨more, ?_⟩
    rw [step]
    cases htext : m.unread with
    | nil =>
      rw [htext, Source.next_of_end (Source.line_eof rfl)] at next
      cases next
      cases more
    | cons c shorter =>
      refine ⟨shorter, rest, tail, ?_⟩
      rw [stepWithin, next, hroom]

/-- A run is over when a step has left nothing ahead. -/
theorem run_of_last_step {i : Instruction} {m₁ : Machine σ} (hstep : m.step = (.executed i, m₁))
    (hreads : Source.Reads m₁.unread []) (hlength : 2 ≤ m.unread.length) :
    m.run = (.ok 1, { m₁ with unread := [] }) := by
  obtain ⟨n, hn⟩ : ∃ n, m.unread.length = n + 2 := ⟨m.unread.length - 2, by omega⟩
  rw [run, hn, runWithin, hstep]
  simp only
  rw [runWithin, step_of_reads_nil hreads]

/-- Recording with a proper name takes what `cutBody` makes of the instructions ahead. -/
theorem interpretWithin_func {step : Machine σ → Outcome × Machine σ} {room : Nat} {name : String}
    {argNames : List String} {instructions body later : List Instruction}
    (hreads : Source.Reads m.unread instructions)
    (hplan : planRecord name argNames = .ok (.record name argNames))
    (hcut : cutBody instructions = (some body, later)) :
    ∃ rest, Source.Reads rest later ∧
      interpretWithin step room ⟨"func", name :: argNames⟩ m =
        (.executed ⟨"func", name :: argNames⟩,
          { m with unread := rest }.define (.recorded name argNames body)) := by
  have hsame : Text.sameIgnoringCase "func" "func" = true := by decide
  have hfunc : Instruction.is ⟨"func", name :: argNames⟩ "func" = true := hsame
  have hstatement := Statement.ofInstruction_func hfunc
  have hrecorded : m.plan (.func name argNames) = .ok (.record name argNames) := hplan
  obtain ⟨rest, hrest, hrecord⟩ := recordBody_of_reads hreads []
  obtain ⟨perform?, hwith⟩ := exists_interpretWith step room
  rw [hcut] at hrest hrecord
  refine ⟨rest, hrest, ?_⟩
  rw [hwith, interpretWith_performed rfl hstatement hrecorded, perform, hrecord]
  rfl

/-- A `func` with a proper name records up to where the instructions are cut. -/
theorem step_func {name : String} {argNames : List String}
    {instructions body later : List Instruction}
    (hreads : Source.Reads m.unread (⟨"func", name :: argNames⟩ :: instructions))
    (hplan : planRecord name argNames = .ok (.record name argNames))
    (hcut : cutBody instructions = (some body, later)) :
    ∃ rest, Source.Reads rest later ∧ m.step = (.executed ⟨"func", name :: argNames⟩,
      { m with unread := rest }.define (.recorded name argNames body)) := by
  obtain ⟨-, shorter, text, htext, hstep⟩ := step_of_reads_cons hreads rfl
  obtain ⟨rest, hrest, hfunc⟩ :=
    interpretWithin_func (m := { m with unread := text }) htext hplan hcut
  exact ⟨rest, hrest, hstep.trans hfunc⟩

/-- An instruction that draws one command puts it on a surface that takes it. -/
theorem step_draw {i : Instruction} {s : Statement} {command : Command}
    {instructions : List Instruction} (hreads : Source.Reads m.unread (i :: instructions))
    (hs : Statement.ofInstruction i = .ok s) (hplan : m.plan s = .ok (.draw [command]))
    (hdraws : Surface.refusal? m.surface command = none) :
    ∃ rest, Source.Reads rest instructions ∧ m.step =
      (.executed i, { m with unread := rest, surface := Surface.draw m.surface command }) := by
  obtain ⟨heof, shorter, rest, hrest, hstep⟩ := step_of_reads_cons hreads rfl
  obtain ⟨perform?, hwith⟩ := exists_interpretWith
    (stepWithin shorter : Machine σ → Outcome × Machine σ) (maxDepth - m.depth)
  have hsame : Agree m { m with unread := rest } := (Agree.refl m).elsewhere
  have hdrawn : drawAll [command] { m with unread := rest } =
      (none, { m with unread := rest, surface := Surface.draw m.surface command }) := by
    simp [drawAll, hdraws]
  refine ⟨rest, hrest, ?_⟩
  rw [hstep, hwith, interpretWith_performed heof hs ((plan_congr hsame s).trans hplan), perform,
    hdrawn]
  rfl

/-- Only the end of the program is reported as such. -/
theorem interpretWithin_ne_eof {step : Machine σ → Outcome × Machine σ} {room : Nat}
    {i : Instruction} (h : i.isEof = false) : (interpretWithin step room i m).1 ≠ .eof := by
  obtain ⟨perform?, hwith⟩ := exists_interpretWith step room
  rw [hwith]
  cases hs : Statement.ofInstruction i with
  | error rejection => simp [interpretWith_rejected h hs]
  | ok s =>
    cases hplan : m.plan s with
    | error fault => simp [interpretWith_refused h hs hplan]
    | ok a =>
      rw [interpretWith_performed h hs hplan]
      cases a with
      | skip | setRegister | removeVariable | log => simp [perform]
      | setVariable | draw => exact executedUnless_ne_eof _ _
      | record name argNames =>
        rw [perform]
        cases recordBody m.unread [] <;> simp
      | invoke f args =>
        rw [perform, invoke]
        cases f.body with
        | builtin | host => simp
        | recorded body =>
          cases perform? with
          | none => simp
          | some perform => exact executedUnless_ne_eof _ _

end Step

/-- Machines that have carried out an instruction in step, with `part` and then `rest` ahead of the
first and `part` alone ahead of the second. -/
structure InStep (part rest : List Instruction) (m m' : Machine σ) (r r' : Outcome × Machine σ) :
    Prop where
  outcome : r'.1 = r.1
  said : ∃ said, Said m said r.2 ∧ Said m' said r'.2
  agree : Agree r.2 r'.2
  reads : ∃ later, later <:+ part ∧ Source.Reads r.2.unread (later ++ rest) ∧
    Source.Reads r'.2.unread later

section InStep

variable [Surface σ] {step step' : Machine σ → Outcome × Machine σ} {room : Nat} {i : Instruction}
  {m m' : Machine σ} {part rest : List Instruction}

/-- An instruction other than `func` does not look at the text, so it does the same on both
machines. -/
theorem inStep_plain (hagree : Agree m m') (hm : m.KeepsText) (hi : i.is "func" = false)
    (hdepth : m'.depth = m.depth) (hroom : room = maxDepth - m.depth)
    (hwhole : Source.Reads m.unread (part ++ rest)) (hpart : Source.Reads m'.unread part) :
    InStep part rest m m' (interpretWithin step room i m) (interpretWithin step' room i m') := by
  have hm' : m'.KeepsText := hm.of_functions hagree.functions
  have halike : Alike m _ _ (interpretWithin step room i m) (interpretWithin step' room i m') :=
    alike_interpretWithin (Nat.le_refl room) hagree hm hi (.inl rfl)
  have halike' : Alike m' _ _ (interpretWithin step' room i m') (interpretWithin step room i m) :=
    alike_interpretWithin (Nat.le_refl room) hagree.symm hm' hi (.inl rfl)
  have haccount := accounts_interpretWithin (i := i) step room hroom hm.stepless
  have haccount' := accounts_interpretWithin (i := i) step' room (hdepth ▸ hroom) hm'.stepless
  refine ⟨halike.outcome, ⟨_, haccount.trace.said, ?_⟩, halike.agree, part, List.suffix_refl part,
    ?_, ?_⟩
  · rw [← halike.events]
    exact haccount'.trace.said
  · rw [halike.unread]
    exact hwhole
  · rw [halike'.unread]
    exact hpart

/-- A recording that starts here and ends in the part comes to the same in both machines. -/
theorem inStep_record (hagree : Agree m m') {name : String} {argNames : List String}
    (hcontained : rest = [] ∨ ∃ j ∈ part, j.is "func" = true)
    (hwhole : Source.Reads m.unread (part ++ rest)) (hpart : Source.Reads m'.unread part)
    (perform? perform?' : Option (Instruction → Machine σ → Outcome × Machine σ)) :
    InStep part rest m m' (perform step perform? i m (.record name argNames))
      (perform step' perform?' i m' (.record name argNames)) := by
  have hcut : cutBody (part ++ rest) = ((cutBody part).1, (cutBody part).2 ++ rest) := by
    rcases hcontained with rfl | hfunc
    · simp
    · exact cutBody_append hfunc rest
  obtain ⟨text, hreads, hrecord⟩ := recordBody_of_reads hwhole []
  obtain ⟨text', hreads', hrecord'⟩ := recordBody_of_reads hpart []
  rw [hcut] at hreads hrecord
  unfold perform
  cases hbody : (cutBody part).1 with
  | some body =>
    rw [hbody] at hrecord hrecord'
    rw [hrecord, hrecord']
    refine ⟨rfl, ⟨[], .refl _, .refl _⟩, ?_, _, cutBody_suffix part, hreads, hreads'⟩
    refine ⟨hagree.registers, hagree.vars, ?_, hagree.surface, hagree.random⟩
    simp only [define]
    rw [hagree.functions]
  | none =>
    rw [hbody] at hrecord hrecord'
    rw [hrecord, hrecord']
    refine ⟨rfl, ⟨_, said_refuse _ _ _, said_refuse _ _ _⟩, ?_, _, cutBody_suffix part, hreads,
      hreads'⟩
    exact agree_refuse hagree.elsewhere _ _

/-- A recording that ends in the part ends at the same place in the whole. -/
theorem inStep_func (hagree : Agree m m') (hi : i.is "func" = true)
    (hcontained : rest = [] ∨ endsFunction i = true ∨ ∃ j ∈ part, j.is "func" = true)
    (hwhole : Source.Reads m.unread (part ++ rest)) (hpart : Source.Reads m'.unread part) :
    InStep part rest m m' (interpretWithin step room i m) (interpretWithin step' room i m') := by
  have heof : i.isEof = false := Instruction.isEof_of_is hi (by decide)
  have hs := Statement.ofInstruction_func hi
  obtain ⟨perform?, hwith⟩ := exists_interpretWith step room
  obtain ⟨perform?', hwith'⟩ := exists_interpretWith step' room
  rw [hwith, hwith']
  cases hparams : i.params with
  | nil =>
    rw [hparams] at hs
    rw [interpretWith_rejected heof hs, interpretWith_rejected heof hs]
    exact ⟨rfl, ⟨_, said_say _ _ _, said_say _ _ _⟩, agree_say hagree _ _, part,
      List.suffix_refl part, hwhole, hpart⟩
  | cons name argNames =>
    rw [hparams] at hs
    have hplan' := plan_congr hagree (.func name argNames)
    cases hplan : m.plan (.func name argNames) with
    | error fault =>
      rw [hplan] at hplan'
      rw [interpretWith_refused heof hs hplan, interpretWith_refused heof hs hplan']
      exact ⟨rfl, ⟨_, said_refuse _ _ _, said_refuse _ _ _⟩, agree_refuse hagree _ _, part,
        List.suffix_refl part, hwhole, hpart⟩
    | ok a =>
      rw [hplan] at hplan'
      rw [interpretWith_performed heof hs hplan, interpretWith_performed heof hs hplan']
      cases plans_of_plan hplan with
      | func unreserved named =>
        apply inStep_record hagree _ hwhole hpart
        rcases hcontained with hrest | hend | hfunc
        · exact .inl hrest
        · rw [endsFunction, hparams] at hend
          simp [unreserved] at hend
        · exact .inr hfunc

end InStep

/-- Whether recordings that start in these instructions also end in them: a `func` that may start
one has another `func` behind it. -/
def SelfContained : List Instruction → Prop
  | [] => True
  | i :: rest =>
    (i.is "func" = true → endsFunction i = true ∨ ∃ j ∈ rest, j.is "func" = true) ∧
      SelfContained rest

theorem SelfContained.suffix {part later : List Instruction} (h : SelfContained part)
    (hlater : later <:+ part) : SelfContained later := by
  induction part with
  | nil =>
    rw [List.suffix_nil.1 hlater]
    trivial
  | cons i part ih =>
    rcases List.suffix_cons_iff.1 hlater with rfl | hlater
    · exact h
    · exact ih h.2 hlater

/-- Machines at the same depth that agree and have no functions that read on in the text. -/
structure Matched (m m' : Machine σ) : Prop where
  agree : Agree m m'
  depth : m'.depth = m.depth
  keepsText : m.KeepsText

/-- Machines that match, the first with `part` and then `rest` ahead and the second with `part`. -/
structure Alongside (part rest : List Instruction) (m m' : Machine σ) : Prop extends
    Matched m m' where
  whole : Source.Reads m.unread (part ++ rest)
  own : Source.Reads m'.unread part
  contained : rest = [] ∨ SelfContained part

theorem Alongside.finish {rest : List Instruction} {m m' : Machine σ} (h : Alongside [] rest m m') :
    Alongside [] rest m { m' with unread := [] } :=
  { h with
    agree := h.agree.elsewhere
    own := Source.reads_nil }

variable [Surface σ]

/-- A step of one machine is a step of the other. -/
theorem Alongside.step {i : Instruction} {part rest : List Instruction} {m m' : Machine σ}
    (h : Alongside (i :: part) rest m m') :
    m'.step.1 = m.step.1 ∧ m.step.1 ≠ .eof ∧
      (∃ said, Said m said m.step.2 ∧ Said m' said m'.step.2) ∧
      ∃ later, later <:+ part ∧ Alongside later rest m.step.2 m'.step.2 := by
  have hroom : maxDepth - m.depth = maxDepth - m'.depth := by rw [h.depth]
  obtain ⟨heof, shorter, text, htext, hstep⟩ := step_of_reads_cons h.whole rfl
  obtain ⟨-, shorter', text', htext', hstep'⟩ := step_of_reads_cons h.own hroom
  have hagree : Agree { m with unread := text } { m' with unread := text' } := h.agree.elsewhere
  have hkeeps : { m with unread := text }.KeepsText := h.keepsText
  have hkeeps' : { m' with unread := text' }.KeepsText := hkeeps.of_functions hagree.functions
  have hinstep : InStep part rest { m with unread := text } { m' with unread := text' } m.step
      m'.step := by
    rw [hstep, hstep']
    cases hi : i.is "func" with
    | false => exact inStep_plain hagree hkeeps hi h.depth rfl htext htext'
    | true =>
      apply inStep_func hagree hi _ htext htext'
      exact h.contained.imp_right fun hcontained ↦ hcontained.1 hi
  have haccount := accounts_interpretWithin (i := i) (stepWithin shorter) _ rfl hkeeps.stepless
  have haccount' := accounts_interpretWithin (i := i) (m := { m' with unread := text' })
    (stepWithin shorter') _ hroom hkeeps'.stepless
  rw [← hstep] at haccount
  rw [← hstep'] at haccount'
  obtain ⟨later, hlater, hwhole, hown⟩ := hinstep.reads
  refine ⟨hinstep.outcome, ?_, hinstep.said, later, hlater, ?_⟩
  · rw [hstep]
    exact interpretWithin_ne_eof heof
  · exact {
      agree := hinstep.agree
      depth := haccount'.depth.trans (h.depth.trans haccount.depth.symm)
      keepsText := hkeeps.trace haccount.trace
      whole := hwhole
      own := hown
      contained := h.contained.imp_right fun hcontained ↦ hcontained.2.suffix hlater }

/-- As long as the whole program runs on to its end, the part takes a step along with it and has not
ended either. -/
theorem Alongside.step_of_run {i : Instruction} {part rest : List Instruction}
    {m m' script : Machine σ} (h : Alongside (i :: part) rest m m') {length count total : Nat}
    (hscript : runWithin length count m = (.ok total, script))
    (hlength : (i :: part ++ rest).length ≤ length) :
    (m'.step.1 = .failed ∨ ∃ j, m'.step.1 = .executed j) ∧
      (∃ said, Said m said m.step.2 ∧ Said m' said m'.step.2) ∧
      ∃ (later : List Instruction) (left count₁ : Nat), later.length ≤ part.length ∧
        (later ++ rest).length ≤ left ∧ runWithin left count₁ m.step.2 = (.ok total, script) ∧
        Alongside later rest m.step.2 m'.step.2 := by
  obtain ⟨houtcome, hne, hsaid, later, hlater, hnext⟩ := h.step
  have hle := hlater.length_le
  rw [List.length_append, List.length_cons] at hlength
  obtain ⟨left, rfl⟩ : ∃ n, length = n + 1 := ⟨length - 1, by omega⟩
  have hahead : (later ++ rest).length ≤ left := by
    rw [List.length_append]
    omega
  rw [runWithin] at hscript
  rw [houtcome]
  rcases hstep : m.step with ⟨outcome, m₁⟩
  rw [hstep] at hne hsaid hnext hscript
  cases outcome with
  | eof => exact absurd rfl hne
  | fatal error => cases hscript
  | failed => exact ⟨.inl rfl, hsaid, later, left, _, hle, hahead, hscript, hnext⟩
  | executed j => exact ⟨.inr ⟨j, rfl⟩, hsaid, later, left, _, hle, hahead, hscript, hnext⟩

/-- When the whole program runs to its end, so does the part, and the run of the whole is then at
the instructions behind it. The induction is on how many instructions are left of the part. -/
theorem Alongside.run {part rest : List Instruction} {m m' script : Machine σ}
    (h : Alongside part rest m m') {length length' count total : Nat}
    (hscript : runWithin length count m = (.ok total, script))
    (hlength : (part ++ rest).length ≤ length) (hlength' : part.length ≤ length') (count' : Nat) :
    ∃ (m₁ m₁' : Machine σ) (left count₁ total' : Nat) (said : List Message),
      runWithin left count₁ m₁ = (.ok total, script) ∧ rest.length ≤ left ∧
        runWithin length' count' m' = (.ok total', m₁') ∧ Alongside [] rest m₁ m₁' ∧
        Said m said m₁ ∧ Said m' said m₁' := by
  induction hsize : part.length using Nat.strongRecOn
    generalizing part m m' length length' count count' with
  | ind size ih =>
    cases part with
    | nil =>
      cases length' with
      | zero =>
        exact ⟨m, m', length, count, count', [], hscript, hlength, rfl, h, .refl m, .refl m'⟩
      | succ length' =>
        refine ⟨m, { m' with unread := [] }, length, count, count', [], hscript, hlength, ?_,
          h.finish, .refl m, .refl m'⟩
        rw [runWithin, step_of_reads_nil h.own]
    | cons i part =>
      obtain ⟨hgoes, ⟨said, hsaid, hsaid'⟩, later, left, count₁, hle, hahead, hnext, halong⟩ :=
        h.step_of_run hscript hlength
      rw [List.length_cons] at hsize hlength'
      obtain ⟨length', rfl⟩ : ∃ n, length' = n + 1 := ⟨length' - 1, by omega⟩
      have hahead' : later.length ≤ length' := by omega
      obtain ⟨m₂, m₂', left, count₂, total', more, hleft, hroom, hrun, hend, hmore, hmore'⟩ :=
        ih later.length (by omega) halong hnext hahead hahead' (count' + 1) rfl
      refine ⟨m₂, m₂', left, count₂, total', said ++ more, hleft, hroom, ?_, hend,
        hsaid.trans hmore, hsaid'.trans hmore'⟩
      rw [runWithin]
      rcases hstep' : m'.step with ⟨outcome', m₁'⟩
      rw [hstep'] at hgoes hrun
      rcases hgoes with rfl | ⟨j, rfl⟩
      · exact hrun
      · exact hrun

end Machine

end PenMachine
