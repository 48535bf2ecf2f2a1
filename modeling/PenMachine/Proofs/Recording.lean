import PenMachine.Canvas.Basic
import PenMachine.Proofs.EndOfText

/-!
# What recording takes off a text

A `func` with a proper name and proper argument names reads on up to the next `func` or to the end
of the program, and what lies before it is the function. Here this is said of the text as the line
grammar has it. The body is the first `k` instructions, where `k` is the place of the first one that
is a `func` or ends the program, and the program goes on behind line `k`, counting the lines that
have words (`LineGrammar.behind`). Recording reads instruction by instruction, and the two agree by
induction on what is left to be read (`Machine.recordBody_eq`).

Only a `func` that is followed by `end` closes a function. Any other one inside, a bare `func`
included, spoils the whole recording.
-/

namespace PenMachine

namespace LineGrammar

/-- The lines behind the first `n` of them that have words. -/
def linesBehind : Nat → List (List Char) → List (List Char)
  | 0, lines => lines
  | _ + 1, [] => []
  | n + 1, line :: lines =>
    if (words line).isEmpty then linesBehind (n + 1) lines else linesBehind n lines

/-- The text behind the first `n` lines that have words. -/
def behind (n : Nat) (text : List Char) : List Char :=
  ['\n'].intercalate (linesBehind n (text.splitOn '\n'))

theorem behind_zero (text : List Char) : behind 0 text = text := by
  rw [behind, linesBehind, List.intercalate_splitOn]

theorem behind_last {line : List Char} (h : '\n' ∉ line) (n : Nat) : behind (n + 1) line = [] := by
  have hnone : linesBehind n [] = [] := by cases n <;> rfl
  rw [behind, List.splitOn_eq_singleton h, linesBehind, linesBehind, hnone, ite_self]
  rfl

theorem behind_cons {line : List Char} (h : '\n' ∉ line) (after : List Char) (n : Nat) :
    behind (n + 1) (line ++ '\n' :: after) =
      if (words line).isEmpty then behind (n + 1) after else behind n after := by
  rw [behind, splitOn_append_cons h, linesBehind]
  split <;> rfl

end LineGrammar

namespace Source

open LineGrammar (words behind)

/-- Asking for instructions passes over as many lines that have words. -/
theorem skip_eq_behind (n : Nat) (text : List Char) : skip n text = behind n text := by
  cases n with
  | zero => exact (LineGrammar.behind_zero text).symm
  | succ n =>
    -- A line without words is passed over and not counted, so the induction is on the lines.
    induction text using LineGrammar.lines_induction generalizing n with
    | last l hl =>
      have hrest : (next l).2 = [] := by
        have hline := line_eq_words hl
        cases hwords : words l with
        | nil => rw [next_of_end (hwords ▸ hline)]
        | cons operation params => rw [next_of_words (hwords ▸ hline)]
      rw [LineGrammar.behind_last hl, skip, hrest, skip_nil]
    | cons l after hl ih =>
      have hline := (line_append hl after).2
      rw [line_eq_words hl] at hline
      rw [LineGrammar.behind_cons hl, skip]
      cases hwords : words l with
      | nil =>
        have hshorter : after.length < (l ++ '\n' :: after).length := by
          rw [List.length_append, List.length_cons]
          omega
        rw [next_of_blank (hwords ▸ hline) hshorter]
        exact ih n
      | cons operation params =>
        rw [next_of_words (hwords ▸ hline)]
        cases n with
        | zero => exact (LineGrammar.behind_zero after).symm
        | succ n => exact ih n

/-- Behind all instructions of a text there is nothing. -/
theorem behind_of_length_le {n : Nat} {text : List Char}
    (h : (LineGrammar.instructions text).length ≤ n) : behind (n + 1) text = [] := by
  have hnone : LineGrammar.instructions (skip n text) = [] := by
    rw [instructions_skip, List.drop_eq_nil_of_le h]
  rw [← skip_eq_behind, skip_succ, next_of_instructions_nil hnone]

end Source

namespace Machine

/-- Whether recording a function reads on no further than this instruction. -/
def stopsRecording (i : Instruction) : Bool := i.isEof || i.is "func"

/-- Whether a function is started by this instruction while another is being recorded. -/
def startsInside (i : Instruction) : Bool := i.is "func" && !endsFunction i

/-- A `func` without parameters starts a function as well. -/
theorem startsInside_iff {i : Instruction} : startsInside i = true ↔
    i.is "func" = true ∧ ∀ word ∈ i.params.head?, Text.sameIgnoringCase word "end" = false := by
  rw [startsInside, endsFunction]
  cases i.is "func" <;> cases i.params <;> simp

/-- Recording by places in the text instead of instruction by instruction. -/
theorem recordBody_eq (text : List Char) (acc : List Instruction) :
    recordBody text acc =
      let ahead := LineGrammar.instructions text
      let k := ahead.findIdx stopsRecording
      if ahead[k]?.any startsInside then .nested (Source.skip (k + 1) text)
      else .complete (acc.reverse ++ ahead.take k) (Source.skip (k + 1) text) := by
  induction text using Source.next_induction generalizing acc with
  | h text ih =>
    cases hahead : LineGrammar.instructions text with
    | nil =>
      have hnext := Source.next_of_instructions_nil hahead
      rw [recordBody_eof (by rw [hnext]; rfl)]
      simp [Source.skip]
    | cons i more =>
      obtain ⟨rest, hnext, hrest⟩ := Source.next_of_instructions_cons hahead
      rw [hnext] at ih
      cases heof : i.isEof with
      | true =>
        have hfunc : i.is "func" = false := by
          rw [← Bool.not_eq_true]
          intro hfunc
          rw [Instruction.isEof_of_is hfunc (by decide)] at heof
          cases heof
        rw [recordBody_eof (by rw [hnext]; exact heof)]
        simp [List.findIdx_cons, stopsRecording, startsInside, heof, hfunc, Source.skip]
      | false =>
        have hmore : (Source.next text).1.isEof = false := by rw [hnext]; exact heof
        cases hfunc : i.is "func" with
        | true =>
          cases hend : endsFunction i with
          | true =>
            rw [recordBody_end hmore (by rw [hnext]; exact hend)]
            simp [List.findIdx_cons, stopsRecording, startsInside, hfunc, hend, Source.skip]
          | false =>
            rw [recordBody_nested hmore (by rw [hnext]; exact hfunc) (by rw [hnext]; exact hend)]
            simp [List.findIdx_cons, stopsRecording, startsInside, hfunc, hend, Source.skip]
        | false =>
          rw [recordBody_cons hmore (by rw [hnext]; exact hfunc), hnext, ih heof, hrest]
          simp [List.findIdx_cons, stopsRecording, heof, hfunc, Source.skip, hnext]

/-- Whether a function may be recorded under this name with these argument names. -/
def ProperHeader (name : String) (argNames : List String) : Prop :=
  Text.sameIgnoringCase name "end" = false ∧ ∀ argName ∈ argNames, isArgumentName argName = true

instance (name : String) (argNames : List String) : Decidable (ProperHeader name argNames) := by
  unfold ProperHeader
  infer_instance

theorem planRecord_of_proper {name : String} {argNames : List String}
    (h : ProperHeader name argNames) : planRecord name argNames = .ok (.record name argNames) := by
  have hnone : argNames.find? (!isArgumentName ·) = none := by
    rw [List.find?_eq_none]
    intro argName hmem
    simp [h.2 argName hmem]
  simp [planRecord, h.1, hnone]

/-- The name and every argument name are checked. -/
theorem planRecord_of_not_proper {name : String} {argNames : List String}
    (h : ¬ ProperHeader name argNames) : ∃ fault, planRecord name argNames = .error fault := by
  unfold planRecord
  split
  · exact ⟨_, rfl⟩
  · rename_i hname
    split
    · exact ⟨_, rfl⟩
    · rename_i hnone
      rw [List.find?_eq_none] at hnone
      refine absurd ⟨by simpa using hname, fun argName hmem ↦ ?_⟩ h
      simpa using hnone argName hmem

section Interpret

variable {σ : Type} [Surface σ] {i : Instruction} {name : String} {argNames : List String}

/-- A header that is refused leaves text and functions alone. -/
theorem interpret_func_refused (hi : i.is "func" = true) (hparams : i.params = name :: argNames)
    {fault : Fault} (hplan : planRecord name argNames = .error fault) (m : Machine σ) :
    interpret i m = (.failed, m.refuse i.operation fault) := by
  have hs := Statement.ofInstruction_func hi
  rw [hparams] at hs
  have hrefused : m.plan (.func name argNames) = .error fault := hplan
  obtain ⟨perform?, hwith⟩ := exists_interpret i m
  rw [hwith, interpretWith_refused (Instruction.isEof_of_is hi (by decide)) hs hrefused]

/-- With a proper header, what is recorded decides. -/
theorem interpret_func_proper (hi : i.is "func" = true) (hparams : i.params = name :: argNames)
    (hproper : ProperHeader name argNames) (m : Machine σ) :
    interpret i m = match recordBody m.unread [] with
      | .complete body rest =>
        (.executed i, { m with unread := rest }.define (.recorded name argNames body))
      | .nested rest =>
        (.failed, { m with unread := rest }.refuse i.operation .nestedFunction) := by
  have hs := Statement.ofInstruction_func hi
  rw [hparams] at hs
  have hplan : m.plan (.func name argNames) = .ok (.record name argNames) :=
    planRecord_of_proper hproper
  obtain ⟨perform?, hwith⟩ := exists_interpret i m
  rw [hwith, interpretWith_performed (Instruction.isEof_of_is hi (by decide)) hs hplan]
  rfl

/-- A `func` whose own words are not in order changes nothing. Any other one looks for the first
instruction ahead that is a `func` too or ends the program. If that one starts another function,
with or without a name, nothing is recorded and the program goes on behind its line. Otherwise the
function has the instructions before it for its body, word for word, and nothing but the text that
is left and the entry of its own name is changed. -/
theorem func_records_up_to_next_func (hi : i.is "func" = true)
    (hparams : i.params = name :: argNames) (m : Machine σ) :
    let ahead := LineGrammar.instructions m.unread
    let k := ahead.findIdx fun j ↦ j.isEof || j.is "func"
    let rest := LineGrammar.behind (k + 1) m.unread
    (¬ ProperHeader name argNames →
      (∃ fault, interpret i m = (.failed, m.refuse i.operation fault)) ∧
        (interpret i m).2.unread = m.unread ∧ (interpret i m).2.functions = m.functions) ∧
    (ProperHeader name argNames →
      (∃ j, ahead[k]? = some j ∧ j.is "func" = true ∧
        ∀ word ∈ j.params.head?, Text.sameIgnoringCase word "end" = false) →
      interpret i m = (.failed, { m with unread := rest }.refuse i.operation .nestedFunction) ∧
        (interpret i m).2.unread = rest ∧ (interpret i m).2.functions = m.functions) ∧
    (ProperHeader name argNames →
      (∀ j, ahead[k]? = some j → j.is "func" = true →
        ∃ word ∈ j.params.head?, Text.sameIgnoringCase word "end" = true) →
      ∃ functions, interpret i m = (.executed i, { m with unread := rest, functions }) ∧
        functions[name]? = some ⟨name, .exactly 0, argNames, .recorded (ahead.take k)⟩ ∧
        ∀ other, other ≠ name → functions[other]? = m.functions[other]?) ∧
    (ahead[k]? = none → k = ahead.length ∧ rest = []) := by
  intro ahead k rest
  have hrecord : recordBody m.unread [] =
      if ahead[k]?.any startsInside then .nested rest else .complete (ahead.take k) rest := by
    have hplaces := recordBody_eq m.unread []
    simp only [Source.skip_eq_behind] at hplaces
    exact hplaces
  refine ⟨fun hheader ↦ ?_, fun hproper hstart ↦ ?_, fun hproper hend ↦ ?_, fun hnone ↦ ?_⟩
  · obtain ⟨fault, hfault⟩ := planRecord_of_not_proper hheader
    rw [interpret_func_refused hi hparams hfault]
    exact ⟨⟨fault, rfl⟩, rfl, rfl⟩
  · obtain ⟨j, hj, hfunc, hword⟩ := hstart
    have hinside : ahead[k]?.any startsInside = true := by
      simp only [hj, Option.any_some, startsInside_iff, hfunc, true_and]
      exact hword
    rw [interpret_func_proper hi hparams hproper, hrecord, if_pos hinside]
    exact ⟨rfl, rfl, rfl⟩
  · have hinside : ¬ ahead[k]?.any startsInside = true := by
      rw [Option.any_eq_true]
      rintro ⟨j, hj, hstarts⟩
      obtain ⟨hfunc, hword⟩ := startsInside_iff.1 hstarts
      obtain ⟨word, hmem, hsame⟩ := hend j hj hfunc
      rw [hword word hmem] at hsame
      cases hsame
    rw [interpret_func_proper hi hparams hproper, hrecord, if_neg hinside]
    refine ⟨_, rfl, ?_, fun other hother ↦ ?_⟩
    · exact Std.HashMap.getElem?_insert_self
    · exact getElem?_define_of_ne _ (.recorded name argNames (ahead.take k)) hother
  · have hlength : ahead.length ≤ k := List.getElem?_eq_none_iff.1 hnone
    exact ⟨Nat.le_antisymm List.findIdx_le_length hlength, Source.behind_of_length_le hlength⟩

end Interpret

/-- A comment, lines without words and a later function around a body of two instructions, which
`FUNC End` closes. A `func` that names an end, or another function inside, records nothing. -/
theorem func_records_twoInstructions :
    let m := fresh "fill ; once\n , \nmove 1 -2\nFUNC End of it\nstrk\nfunc g"
    let nested := fresh "fill\nfunc g\nstrk"
    (∃ functions, interpret ⟨"Func", ["f", "x", "$.y"]⟩ m =
        (.executed ⟨"Func", ["f", "x", "$.y"]⟩,
          { m with unread := "strk\nfunc g".toList, functions }) ∧
      functions["f"]? = some ⟨"f", .exactly 0, ["x", "$.y"],
        .recorded [⟨"fill", []⟩, ⟨"move", ["1", "-2"]⟩]⟩ ∧
      ∀ other, other ≠ "f" → functions[other]? = m.functions[other]?) ∧
    (∃ fault, interpret ⟨"func", ["END"]⟩ m = (.failed, m.refuse "func" fault)) ∧
    interpret ⟨"func", ["f"]⟩ nested =
      (.failed, { nested with unread := "strk".toList }.refuse "func" .nestedFunction) := by
  intro m nested
  have hahead : LineGrammar.instructions m.unread =
      [⟨"fill", []⟩, ⟨"move", ["1", "-2"]⟩, ⟨"FUNC", ["End", "of", "it"]⟩, ⟨"strk", []⟩,
        ⟨"func", ["g"]⟩] := by
    decide +kernel
  have hrest : LineGrammar.behind 3 m.unread = "strk\nfunc g".toList := by decide +kernel
  have hinside : LineGrammar.instructions nested.unread =
      [⟨"fill", []⟩, ⟨"func", ["g"]⟩, ⟨"strk", []⟩] := by
    decide +kernel
  have hbehind : LineGrammar.behind 2 nested.unread = "strk".toList := by decide +kernel
  have hproper : ProperHeader "f" ["x", "$.y"] := by decide +kernel
  have hplain : ProperHeader "f" [] := by decide +kernel
  have hend : ¬ ProperHeader "END" [] := by decide +kernel
  obtain ⟨-, -, hrecorded, -⟩ := func_records_up_to_next_func
    (i := ⟨"Func", ["f", "x", "$.y"]⟩) (by decide) rfl m
  obtain ⟨hrefused, -⟩ := func_records_up_to_next_func (i := ⟨"func", ["END"]⟩) (by decide) rfl m
  obtain ⟨-, hnested, -⟩ := func_records_up_to_next_func
    (i := ⟨"func", ["f"]⟩) (by decide) rfl nested
  have hplace : [⟨"fill", []⟩, ⟨"move", ["1", "-2"]⟩, ⟨"FUNC", ["End", "of", "it"]⟩, ⟨"strk", []⟩,
      ⟨"func", ["g"]⟩].findIdx (fun j : Instruction ↦ j.isEof || j.is "func") = 2 := by decide
  have hplace' : [⟨"fill", []⟩, ⟨"func", ["g"]⟩, ⟨"strk", []⟩].findIdx
      (fun j : Instruction ↦ j.isEof || j.is "func") = 1 := by decide
  rw [hahead, hplace, hrest] at hrecorded
  rw [hinside, hplace', hbehind] at hnested
  refine ⟨hrecorded hproper ?_, (hrefused hend).1, (hnested hplain ?_).1⟩
  · rintro j hj -
    cases hj
    exact ⟨"End", rfl, by decide⟩
  · exact ⟨⟨"func", ["g"]⟩, rfl, by decide, by simp; decide⟩

/-- A bare `func` inside a function has no first word that could differ from `end`, and still it
does not end the function but spoils it. -/
theorem bare_func_spoils_recording :
    let m := fresh "fill\nfunc\nstrk\n"
    LineGrammar.instructions m.unread = [⟨"fill", []⟩, ⟨"func", []⟩, ⟨"strk", []⟩] ∧
      (interpret ⟨"func", ["f"]⟩ m).1 = .failed ∧
      (interpret ⟨"func", ["f"]⟩ m).2.functions = m.functions := by
  intro m
  have hahead : LineGrammar.instructions m.unread =
      [⟨"fill", []⟩, ⟨"func", []⟩, ⟨"strk", []⟩] := by
    decide +kernel
  have hproper : ProperHeader "f" [] := by decide +kernel
  have hinterpret := interpret_func_proper (i := ⟨"func", ["f"]⟩) (by decide) rfl hproper m
  have hinside : recordBody m.unread [] = .nested (Source.skip 2 m.unread) := by
    rw [recordBody_eq, hahead]
    rfl
  rw [hinside] at hinterpret
  rw [hinterpret]
  exact ⟨hahead, rfl, rfl⟩

end Machine

end PenMachine
