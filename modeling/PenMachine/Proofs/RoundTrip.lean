import PenMachine.Proofs.LineGrammar

/-!
# Reading what was written

Instructions that are written one a line and read again are the same instructions, provided that
their words can be words at all: they are not empty and hold no delimiter. Every instruction that is
read satisfies this, so reading, writing and reading again gives what the first reading gave
(`Source.reading_undoes_writing`). Nothing is said about which words they are: an operation `EOF` is
written and read like any other.
-/

namespace PenMachine

/-- Whether a text can be a word of a program. -/
structure IsWord (text : String) : Prop where
  ne_empty : text ≠ ""
  plain : ∀ c ∈ text.toList, Token.isDelimiter c = false

def Instruction.Writable (i : Instruction) : Prop :=
  ∀ text ∈ i.operation :: i.params, IsWord text

instance (text : String) : Decidable (IsWord text) :=
  decidable_of_iff (text ≠ "" ∧ text.toList.all (!Token.isDelimiter ·) = true)
    ⟨fun h ↦ ⟨h.1, by simpa using h.2⟩, fun h ↦ ⟨h.ne_empty, by simpa using h.plain⟩⟩

instance (i : Instruction) : Decidable i.Writable :=
  inferInstanceAs (Decidable (∀ text ∈ i.operation :: i.params, IsWord text))

def Instruction.writeAll (instructions : List Instruction) : String :=
  String.join (instructions.map fun i ↦ i.toText ++ "\n")

/-- What is read as a word can be written as one. -/
theorem Token.isWord_of_read {text rest : List Char} {w : String}
    (h : read text = (.word w, rest)) : IsWord w := by
  fun_induction read text with
  | case4 c rest' _ _ _ ih => exact ih h
  | case7 c rest' hnewline hcomma hblank hsemicolon =>
    cases h
    have hc : isDelimiter c = false := by simp [isDelimiter, hnewline, hcomma, hblank, hsemicolon]
    refine ⟨by simp, ?_⟩
    rw [String.toList_ofList]
    exact plain_of_mem_word hc rest'
  | case1 | case2 | case3 | case5 | case6 => simp at h

namespace Source

theorem isWord_of_mem_line {text : List Char} {w : String} (h : w ∈ (line text).1) : IsWord w := by
  fun_induction line text with
  | case1 text word rest hread words after hline ih =>
    rcases List.mem_cons.1 h with rfl | hmem
    · exact Token.isWord_of_read hread
    · exact ih (by rwa [hline])
  | case2 text rest hread ih => exact ih h
  | case3 | case4 => simp at h

/-- Every instruction that is read is writable, the last one included. -/
theorem writable_next (text : List Char) : (next text).1.Writable := by
  fun_induction next text with
  | case1 text operation params rest hline =>
    intro w hw
    have hmem : w ∈ (line text).1 := by rwa [hline]
    exact isWord_of_mem_line hmem
  | case2 text rest hline hshorter ih => exact ih
  | case3 text rest =>
    intro w hw
    obtain rfl : w = "EOF" := by simpa [Instruction.eof] using hw
    decide

theorem writable_of_mem_readAll {text : List Char} {i : Instruction} (h : i ∈ (readAll text).1) :
    i.Writable := by
  fun_induction readAll text with
  | case1 text hwords ih =>
    rcases List.mem_cons.1 h with rfl | hmem
    · exact writable_next text
    · exact ih hmem
  | case2 => simp at h

end Source

namespace Instruction

/-- The characters of an instruction on one line. -/
theorem toList_toText (i : Instruction) :
    i.toText.toList = i.operation.toList ++ i.params.flatMap fun param ↦ ' ' :: param.toList := by
  unfold toText
  generalize i.operation = line
  induction i.params generalizing line with
  | nil => simp
  | cons param params ih => simp [ih, String.toList_append]

theorem toList_writeAll (instructions : List Instruction) :
    (writeAll instructions).toList = instructions.flatMap fun i ↦ i.toText.toList ++ ['\n'] := by
  unfold writeAll
  induction instructions with
  | nil => simp
  | cons i rest ih => simp [ih, String.toList_append]

end Instruction

namespace LineGrammar

theorem words_of_isWord {w : String} (h : IsWord w) {line : List Char}
    (hline : ∀ c ∈ line.head?, Token.isDelimiter c = true) :
    words (w.toList ++ line) = w :: words line := by
  have hne : w.toList ≠ [] := by simpa using h.ne_empty
  rw [words_append hne h.plain hline, String.ofList_toList]

/-- A space stands before every parameter. -/
theorem isDelimiter_head_params (params : List String) :
    ∀ c ∈ (params.flatMap fun param ↦ ' ' :: param.toList).head?, Token.isDelimiter c = true := by
  cases params with
  | nil => simp
  | cons param params =>
    intro c hc
    obtain rfl : ' ' = c := by simpa using hc
    decide

theorem words_params {params : List String} (h : ∀ param ∈ params, IsWord param) :
    words (params.flatMap fun param ↦ ' ' :: param.toList) = params := by
  induction params with
  | nil => exact words_nil
  | cons param params ih =>
    rw [List.flatMap_cons, List.cons_append, words_separator (by decide),
      words_of_isWord (h param (by simp)) (isDelimiter_head_params params),
      ih fun p hp ↦ h p (List.mem_cons_of_mem param hp)]

/-- The line of a writable instruction has its operation and its parameters as words. -/
theorem words_toText {i : Instruction} (h : i.Writable) :
    words i.toText.toList = i.operation :: i.params := by
  rw [Instruction.toList_toText,
    words_of_isWord (h i.operation (by simp)) (isDelimiter_head_params i.params),
    words_params fun param hp ↦ h param (List.mem_cons_of_mem _ hp)]

theorem newline_notMem_toText {i : Instruction} (h : i.Writable) : '\n' ∉ i.toText.toList := by
  have hword : ∀ w, IsWord w → '\n' ∉ w.toList := fun w hw hmem ↦
    absurd (hw.plain _ hmem) (by decide)
  rw [Instruction.toList_toText]
  simp only [List.mem_append, List.mem_flatMap, List.mem_cons, not_or, not_exists, not_and]
  refine ⟨hword _ (h i.operation (by simp)), fun param hp ↦ ⟨by decide, ?_⟩⟩
  exact hword _ (h param (List.mem_cons_of_mem _ hp))

/-- Lines that are written one below the other hold the instructions that were written. -/
theorem instructions_writeAll {all : List Instruction} (h : ∀ i ∈ all, i.Writable) :
    instructions (Instruction.writeAll all).toList = all := by
  rw [Instruction.toList_writeAll]
  induction all with
  | nil => rfl
  | cons i rest ih =>
    have hi := h i (by simp)
    rw [List.flatMap_cons, List.append_assoc, List.singleton_append,
      instructions_cons (newline_notMem_toText hi), words_toText hi,
      ih fun j hj ↦ h j (List.mem_cons_of_mem i hj)]
    rfl

end LineGrammar

namespace Source

theorem readAll_writeAll {all : List Instruction} (h : ∀ i ∈ all, i.Writable) :
    (readAll (Instruction.writeAll all).toList).1 = all :=
  calc
    (readAll (Instruction.writeAll all).toList).1
    _ = LineGrammar.instructions (Instruction.writeAll all).toList := (instructions_readAll _).1
    _ = all := LineGrammar.instructions_writeAll h

/-- Reading undoes writing. Writable instructions, each written on a line, are read again as they
were; every instruction that is read from any text is writable, whichever call gives it; and so
writing what was read from a text and reading it again gives the same instructions. -/
theorem reading_undoes_writing :
    (∀ all : List Instruction, (∀ i ∈ all, i.Writable) →
      (readAll (Instruction.writeAll all).toList).1 = all) ∧
    (∀ source : String, (∀ n, (next (skip n source.toList)).1.Writable) ∧
      ∀ i ∈ (readAll source.toList).1, i.Writable) ∧
    ∀ source : String, (readAll (Instruction.writeAll (readAll source.toList).1).toList).1 =
      (readAll source.toList).1 := by
  have hwritable : ∀ source : String, ∀ i ∈ (readAll source.toList).1, i.Writable :=
    fun source i hi ↦ writable_of_mem_readAll hi
  refine ⟨fun all h ↦ readAll_writeAll h, fun source ↦ ⟨fun n ↦ ?_, hwritable source⟩, ?_⟩
  · exact writable_next (skip n source.toList)
  · exact fun source ↦ readAll_writeAll (hwritable source)

/-- A parameter may hold a zero-width space, which is no blank, and the operation may be `EOF`. -/
theorem reading_undoes_writing_endAndMove :
    (∀ i ∈ [⟨"EOF", ["x"]⟩, ⟨"MovP", ["-10", "a\u200bb"]⟩], Instruction.Writable i) ∧
      (readAll "EOF x\nMovP -10 a\u200bb\n".toList).1 =
        [⟨"EOF", ["x"]⟩, ⟨"MovP", ["-10", "a\u200bb"]⟩] := by
  have hwritable : ∀ i ∈ [⟨"EOF", ["x"]⟩, ⟨"MovP", ["-10", "a\u200bb"]⟩],
      Instruction.Writable i := by
    decide
  exact ⟨hwritable, reading_undoes_writing.1 _ hwritable⟩

end Source

end PenMachine
