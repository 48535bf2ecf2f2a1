import PenMachine.Proofs.Reading

/-!
# The line grammar

What a program text says, without reading it character by character: it is split at newlines, each
line is cut at its first semicolon, and what is left of it is split at commas and blanks. The pieces
that are not empty are the words of the line, and a line that has words is an instruction.

Reading instruction by instruction gives just these (`Source.readAll_eq_instructions`). Words are
compared line by line, token by token on a line; the rest follows by induction on the lines of the
text (`LineGrammar.lines_induction`), since the words of a line do not depend on what follows it.
-/

namespace PenMachine

namespace LineGrammar

/-- Whether a character stands between words and means nothing else. -/
def isSeparator (c : Char) : Bool := c == ',' || Text.isBlank c

def words (line : List Char) : List String :=
  (((line.takeWhile (· != ';')).splitOnP isSeparator).filter (!·.isEmpty)).map String.ofList

/-- The first word is the operation and the others are its parameters. -/
def instruction? : List String → Option Instruction
  | [] => none
  | operation :: params => some ⟨operation, params⟩

def instructions (text : List Char) : List Instruction :=
  (text.splitOn '\n').filterMap (instruction? ∘ words)

def wordLines (text : List Char) : Nat :=
  (text.splitOn '\n').countP fun line ↦ !(words line).isEmpty

/-- A line that has words is one instruction. -/
theorem length_instructions (text : List Char) : (instructions text).length = wordLines text := by
  unfold instructions wordLines
  induction text.splitOn '\n' with
  | nil => rfl
  | cons line rest ih =>
    cases hwords : words line with
    | nil => simpa [hwords, instruction?] using ih
    | cons operation params => simpa [hwords, instruction?] using ih

/-- A text is a line without newlines, or such a line, a newline and another text. -/
theorem lines_induction {motive : List Char → Prop}
    (last : ∀ line, '\n' ∉ line → motive line)
    (cons : ∀ line after, '\n' ∉ line → motive after → motive (line ++ '\n' :: after))
    (text : List Char) : motive text := by
  induction hlength : text.length using Nat.strongRecOn generalizing text with
  | ind length ih =>
    by_cases hnewline : '\n' ∈ text
    · obtain ⟨line, after, rfl, hline⟩ := List.eq_append_cons_of_mem hnewline
      have hshorter : after.length < length := by
        rw [← hlength, List.length_append, List.length_cons]
        omega
      exact cons line after hline (ih _ hshorter after rfl)
    · exact last text hnewline

theorem instructions_last {line : List Char} (h : '\n' ∉ line) :
    instructions line = (instruction? (words line)).toList := by
  rw [instructions, List.splitOn_eq_singleton h]
  cases hline : instruction? (words line) <;> simp [hline]

theorem splitOn_append_cons {mark : Char} {before : List Char} (h : mark ∉ before)
    (after : List Char) :
    (before ++ mark :: after).splitOn mark = before :: after.splitOn mark := by
  have hbefore : ∀ c ∈ before, (c == mark) = false := by
    intro c hc
    rw [beq_eq_false_iff_ne]
    rintro rfl
    exact h hc
  exact List.splitOnP_append_cons_of_forall_mem hbefore mark (beq_self_eq_true mark) after

/-- A text is read line by line. -/
theorem instructions_cons {line : List Char} (h : '\n' ∉ line) (after : List Char) :
    instructions (line ++ '\n' :: after) =
      (instruction? (words line)).toList ++ instructions after := by
  rw [instructions, splitOn_append_cons h]
  cases hwords : instruction? (words line) <;> simp [instructions, hwords]

theorem ne_semicolon_of_isSeparator {c : Char} (h : isSeparator c = true) : (c != ';') = true := by
  rw [bne_iff_ne]
  rintro rfl
  revert h
  decide

/-- A separator adds nothing to the words behind it. -/
theorem words_separator {c : Char} (h : isSeparator c = true) (line : List Char) :
    words (c :: line) = words line := by
  simp [words, ne_semicolon_of_isSeparator h, List.splitOnP_cons_eq_if_modifyHead, h]

theorem words_semicolon (line : List Char) : words (';' :: line) = [] := by
  simp [words]

theorem words_nil : words [] = [] := by
  simp [words]

/-- The characters that end a word are the separators and the semicolon. A newline is a blank. -/
theorem isDelimiter_eq (c : Char) : Token.isDelimiter c = (isSeparator c || c == ';') := by
  have hnewline : c = '\n' → Text.isBlank c = true := by
    rintro rfl
    decide
  rw [Bool.eq_iff_iff]
  simp only [Token.isDelimiter, isSeparator, Bool.or_eq_true, beq_iff_eq]
  grind

/-- A run of characters up to a delimiter, or to the end of the line, is a word. -/
theorem words_append {word line : List Char} (hne : word ≠ [])
    (hword : ∀ c ∈ word, Token.isDelimiter c = false)
    (hline : ∀ c ∈ line.head?, Token.isDelimiter c = true) :
    words (word ++ line) = String.ofList word :: words line := by
  have hseparator : ∀ c ∈ word, isSeparator c = false := by
    intro c hc
    have hplain := hword c hc
    rw [isDelimiter_eq, Bool.or_eq_false_iff] at hplain
    exact hplain.1
  have hsemicolon : ∀ c ∈ word, (c != ';') = true := by
    intro c hc
    have hplain := hword c hc
    rw [isDelimiter_eq, Bool.or_eq_false_iff] at hplain
    simpa using hplain.2
  have htake : (word ++ line).takeWhile (· != ';') = word ++ line.takeWhile (· != ';') :=
    List.takeWhile_append_of_pos hsemicolon
  have hkept : (!word.isEmpty) = true := by simpa using hne
  rw [words, htake]
  -- The word ends with the line, at a separator or at a semicolon.
  cases line with
  | nil => simp [words, List.splitOnP_eq_singleton hseparator, hkept]
  | cons c line =>
    have hdelimiter : Token.isDelimiter c = true := hline c (by simp)
    rw [isDelimiter_eq, Bool.or_eq_true, beq_iff_eq] at hdelimiter
    rcases hdelimiter with hc | rfl
    · rw [words_separator hc,
        List.takeWhile_cons_of_pos (p := (· != ';')) (ne_semicolon_of_isSeparator hc),
        List.splitOnP_append_cons_of_forall_mem hseparator c hc]
      simp [words, hkept]
    · simp [words, List.splitOnP_eq_singleton hseparator, hkept]

end LineGrammar

open LineGrammar (words isSeparator)

/-- A word that is read goes on up to a delimiter. -/
theorem Token.plain_of_mem_word {c : Char} (h : isDelimiter c = false) (rest : List Char) :
    ∀ x ∈ c :: rest.takeWhile (!isDelimiter ·), isDelimiter x = false := by
  intro x hx
  rcases List.mem_cons.1 hx with rfl | hx
  · exact h
  · have hall := List.all_takeWhile (p := (!isDelimiter ·)) (l := rest)
    simpa using List.all_eq_true.1 hall x hx

/-- A token is the next word of a line, or it adds nothing to its words. -/
theorem Token.words_of_read {l : List Char} (h : '\n' ∉ l) :
    words l = match read l with
      | (.word text, rest) => text :: words rest
      | (.comma, rest) => words rest
      | _ => [] := by
  fun_induction read l with
  | case1 => exact LineGrammar.words_nil
  | case2 => simp at h
  | case3 rest => exact LineGrammar.words_separator (by decide) rest
  | case4 c rest _ _ hblank ih =>
    have hseparator : isSeparator c = true := by simp [isSeparator, hblank]
    rw [LineGrammar.words_separator hseparator]
    exact ih fun hmem ↦ h (List.mem_cons_of_mem c hmem)
  | case5 rest => exact LineGrammar.words_semicolon rest
  | case6 rest => exact LineGrammar.words_semicolon rest
  | case7 c rest hnewline hcomma hblank hsemicolon =>
    have hc : isDelimiter c = false := by simp [isDelimiter, hnewline, hcomma, hblank, hsemicolon]
    have hrest : ∀ x ∈ (rest.dropWhile (!isDelimiter ·)).head?, isDelimiter x = true := by
      intro x hx
      have hfirst := List.head?_dropWhile_not (!isDelimiter ·) rest
      rw [hx] at hfirst
      simpa using hfirst
    have happend := LineGrammar.words_append (by simp) (plain_of_mem_word hc rest) hrest
    rwa [List.cons_append, List.takeWhile_append_dropWhile] at happend

namespace Source

theorem line_eq_words {l : List Char} (h : '\n' ∉ l) : line l = (words l, []) := by
  have hrest := (line_append h []).1
  suffices hwords : (line l).1 = words l from Prod.ext hwords hrest
  clear hrest
  induction hlength : l.length using Nat.strongRecOn generalizing l with
  | ind length ih =>
    subst hlength
    have hshorter := Token.length_read_lt l
    obtain ⟨hnewline, hrest, -⟩ := Token.read_append h []
    rw [Token.words_of_read h]
    rcases hread : Token.read l with ⟨token, rest⟩
    rw [hread] at hnewline hrest hshorter
    cases token with
    | newline => exact absurd rfl hnewline
    | eof => rw [line_eof hread]
    | comma => rw [line_comma hread, ih _ (hshorter (by simp)) hrest rfl]
    | word text => rw [line_word hread, ih _ (hshorter (by simp)) hrest rfl]

/-! ## Reading a text -/

/-- The next instruction is the first one of the grammar, and the others are left. -/
theorem next_eq_instructions (text : List Char) :
    match LineGrammar.instructions text with
    | [] => next text = (.eof, [])
    | i :: more => ∃ rest, next text = (i, rest) ∧ LineGrammar.instructions rest = more := by
  induction text using LineGrammar.lines_induction with
  | last l hl =>
    have hline := line_eq_words hl
    rw [LineGrammar.instructions_last hl]
    cases hwords : words l with
    | nil => exact next_of_end (hwords ▸ hline)
    | cons operation params =>
      refine ⟨[], next_of_words (hwords ▸ hline), ?_⟩
      rw [LineGrammar.instructions_last (by simp), LineGrammar.words_nil]
      rfl
  | cons l after hl ih =>
    have hline := (line_append hl after).2
    rw [line_eq_words hl] at hline
    rw [LineGrammar.instructions_cons hl]
    cases hwords : words l with
    | nil =>
      have hshorter : after.length < (l ++ '\n' :: after).length := by
        rw [List.length_append, List.length_cons]
        omega
      rw [next_of_blank (hwords ▸ hline) hshorter]
      exact ih
    | cons operation params => exact ⟨after, next_of_words (hwords ▸ hline), rfl⟩

/-- When no line has words, the text is read to its end. -/
theorem next_of_instructions_nil {text : List Char} (h : LineGrammar.instructions text = []) :
    next text = (.eof, []) := by
  have hnext := next_eq_instructions text
  rwa [h] at hnext

/-- The next instruction is that of the first line with words. -/
theorem next_of_instructions_cons {text : List Char} {i : Instruction} {more : List Instruction}
    (h : LineGrammar.instructions text = i :: more) :
    ∃ rest, next text = (i, rest) ∧ LineGrammar.instructions rest = more := by
  have hnext := next_eq_instructions text
  rwa [h] at hnext

/-- A text that does not name `EOF` reads as the instructions of the grammar. -/
theorem reads_instructions {text : List Char}
    (h : ∀ i ∈ LineGrammar.instructions text, i.isEof = false) :
    Reads text (LineGrammar.instructions text) := by
  generalize hall : LineGrammar.instructions text = all at h
  induction all generalizing text with
  | nil => exact .nil (next_of_instructions_nil hall) rfl
  | cons i more ih =>
    obtain ⟨rest, hnext, hrest⟩ := next_of_instructions_cons hall
    exact .cons hnext (h i (by simp)) (ih hrest fun j hj ↦ h j (List.mem_cons_of_mem i hj))

/-- Whether a text holds words that have not been read. -/
def hasWords (text : List Char) : Bool :=
  (tokens text).any fun
    | .word _ => true
    | _ => false

/-- The next token decides whether there are words. -/
theorem hasWords_of_read (text : List Char) :
    hasWords text = match Token.read text with
      | (.word _, _) => true
      | (.eof, _) => false
      | (_, rest) => hasWords rest := by
  unfold hasWords
  rw [tokens]
  rcases Token.read text with ⟨token, rest⟩
  cases token <;> simp

theorem hasWords_line (text : List Char) :
    hasWords text = (!(line text).1.isEmpty || hasWords (line text).2) := by
  fun_induction line text with
  | case1 text word rest hread => simp [hasWords_of_read text, hread]
  | case2 text rest hread ih =>
    rw [hasWords_of_read text, hread]
    exact ih
  | case3 text rest hread => simp [hasWords_of_read text, hread]
  | case4 text rest hread =>
    have hrest : rest = [] := by simpa [hread] using Token.read_eof_rest text
    have hnil : hasWords [] = false := hasWords_of_read []
    simp [hasWords_of_read text, hread, hrest, hnil]

/-- A text has words left just when it has instructions left. -/
theorem hasWords_eq_instructions (text : List Char) :
    hasWords text = !(LineGrammar.instructions text).isEmpty := by
  have hnil : hasWords [] = false := hasWords_of_read []
  induction text using LineGrammar.lines_induction with
  | last l hl =>
    rw [hasWords_line, line_eq_words hl, LineGrammar.instructions_last hl, hnil]
    cases words l <;> simp [LineGrammar.instruction?]
  | cons l after hl ih =>
    rw [hasWords_line, (line_append hl after).2, line_eq_words hl,
      LineGrammar.instructions_cons hl, ih]
    cases words l <;> simp [LineGrammar.instruction?]

theorem length_line_lt_of_ne_nil {text : List Char} (h : text ≠ []) :
    (line text).2.length < text.length := by
  fun_cases line text with
  | case1 word rest hread =>
    have hshorter := Token.length_read_lt text (by simp [hread])
    have hline := length_line_le rest
    simp_all
    omega
  | case2 rest hread =>
    have hshorter := Token.length_read_lt text (by simp [hread])
    have hline := length_line_le rest
    simp_all
    omega
  | case3 rest hread =>
    have hshorter := Token.length_read_lt text (by simp [hread])
    simp_all
  | case4 rest hread =>
    have hrest := Token.read_eof_rest text (by simp [hread])
    have hpos := List.length_pos_iff.2 h
    simp_all

theorem length_next_le (text : List Char) : (next text).2.length ≤ text.length := by
  fun_induction next text with
  | case1 text operation params rest hline =>
    have hle := length_line_le text
    rwa [hline] at hle
  | case2 text rest hline hshorter ih => exact Nat.le_of_lt (Nat.lt_of_le_of_lt ih hshorter)
  | case3 text rest hline =>
    have hle := length_line_le text
    rwa [hline] at hle

/-- Reading on takes something off every text but the empty one. -/
theorem length_next_lt_of_ne_nil {text : List Char} (h : text ≠ []) :
    (next text).2.length < text.length := by
  have hline := length_line_lt_of_ne_nil h
  rw [next]
  rcases hread : line text with ⟨_ | ⟨operation, params⟩, rest⟩
  · rw [hread] at hline
    simpa [hline] using Nat.lt_of_le_of_lt (length_next_le rest) hline
  · rwa [hread] at hline

theorem next_nil : next [] = (.eof, []) := next_of_end (line_eof rfl)

/-- Reads instructions one after another as long as there are words left, and gives them with the
text that is left then. -/
def readAll (text : List Char) : List Instruction × List Char :=
  if _h : hasWords text = true then
    ((next text).1 :: (readAll (next text).2).1, (readAll (next text).2).2)
  else ([], text)
termination_by text.length
decreasing_by
  all_goals
    apply length_next_lt_of_ne_nil
    rintro rfl
    simp [hasWords_of_read, Token.read] at _h

/-- The text that is left when so many instructions have been asked for. -/
def skip : Nat → List Char → List Char
  | 0, text => text
  | n + 1, text => skip n (next text).2

theorem instructions_next (text : List Char) :
    LineGrammar.instructions (next text).2 = (LineGrammar.instructions text).tail := by
  cases hall : LineGrammar.instructions text with
  | nil =>
    rw [next_of_instructions_nil hall, LineGrammar.instructions_last (by simp),
      LineGrammar.words_nil]
    rfl
  | cons i more =>
    obtain ⟨rest, hnext, hrest⟩ := next_of_instructions_cons hall
    rw [hnext]
    exact hrest

/-- Asking `n` times takes off the first `n` instructions. -/
theorem instructions_skip (n : Nat) (text : List Char) :
    LineGrammar.instructions (skip n text) = (LineGrammar.instructions text).drop n := by
  induction n generalizing text with
  | zero => rfl
  | succ n ih => rw [skip, ih, instructions_next, List.drop_tail]

/-- Each call gives the instruction of its number, and `Instruction.eof` when there is none. -/
theorem next_skip (n : Nat) (text : List Char) :
    (next (skip n text)).1 = (LineGrammar.instructions text)[n]?.getD .eof := by
  rw [← List.head?_drop, ← instructions_skip]
  cases hleft : LineGrammar.instructions (skip n text) with
  | nil =>
    rw [next_of_instructions_nil hleft]
    rfl
  | cons i more =>
    obtain ⟨rest, hnext, -⟩ := next_of_instructions_cons hleft
    rw [hnext]
    rfl

/-- Reading all of a text gives the instructions of the grammar, and leaves none. -/
theorem instructions_readAll (text : List Char) :
    (readAll text).1 = LineGrammar.instructions text ∧
      LineGrammar.instructions (readAll text).2 = [] := by
  fun_induction readAll text with
  | case1 text hwords ih =>
    rw [hasWords_eq_instructions] at hwords
    cases hall : LineGrammar.instructions text with
    | nil => simp [hall] at hwords
    | cons i more =>
      obtain ⟨rest, hnext, hrest⟩ := next_of_instructions_cons hall
      rw [hnext] at ih ⊢
      rw [hrest] at ih
      exact ⟨by rw [ih.1], ih.2⟩
  | case2 text hwords =>
    have hall : LineGrammar.instructions text = [] := by
      simpa [hasWords_eq_instructions] using hwords
    exact ⟨hall.symm, hall⟩

/-- Reading follows the line grammar. As long as words are left, the calls give the instructions of
the grammar in their order; from then on every call gives `Instruction.eof`. Call by call, each
gives the instruction of its number in the grammar, if there is one. -/
theorem readAll_eq_instructions (source : String) :
    (readAll source.toList).1 = LineGrammar.instructions source.toList ∧
      (∀ n, next (skip n (readAll source.toList).2) = (.eof, [])) ∧
      ∀ n, (next (skip n source.toList)).1 =
        (LineGrammar.instructions source.toList)[n]?.getD .eof := by
  obtain ⟨hall, hleft⟩ := instructions_readAll source.toList
  refine ⟨hall, fun n ↦ ?_, fun n ↦ next_skip n source.toList⟩
  apply next_of_instructions_nil
  rw [instructions_skip, hleft, List.drop_nil]

example : (readAll "\n ,add\t1,,2;x\r\n;EOF\nEOF\u2028fill".toList).1 =
    [⟨"add", ["1", "2"]⟩, ⟨"EOF", ["fill"]⟩] := by
  cbv

end Source

end PenMachine
