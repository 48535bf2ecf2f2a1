import PenMachine.Machine.Interpreter

/-!
# Reading programs

A program is read instruction by instruction, and `Source.next_induction` is the induction that goes
with it. `Source.Reads` says which instructions a text holds, and reading is compositional in lines:
a text made of whole lines can be put in front of any other (`Source.Extends`). Recording a function
reads up to the first instruction that starts or ends a function or ends the program, so what it
comes to depends on the instructions ahead and not on how they are written
(`Machine.recordBody_of_reads`).
-/

namespace PenMachine

theorem takeWhile_append_cons {α : Type} {p : α → Bool} {x : α} (hx : p x = false)
    (l after : List α) : (l ++ x :: after).takeWhile p = l.takeWhile p := by
  induction l with
  | nil => simp [hx]
  | cons a l ih => cases ha : p a <;> simp [ha, ih]

theorem dropWhile_append_cons {α : Type} {p : α → Bool} {x : α} (hx : p x = false)
    (l after : List α) : (l ++ x :: after).dropWhile p = l.dropWhile p ++ x :: after := by
  induction l with
  | nil => simp [hx]
  | cons a l ih => cases ha : p a <;> simp [ha, ih]

theorem dropWhile_newline {l : List Char} (h : '\n' ∉ l) : l.dropWhile (· != '\n') = [] := by
  induction l with
  | nil => rfl
  | cons c l ih =>
    rw [List.mem_cons, not_or] at h
    have hne : (c != '\n') = true := by simpa using Ne.symm h.1
    simp only [List.dropWhile_cons, hne, if_true]
    exact ih h.2

/-- On a single line a token is read as if the line went on, up to the newline that ends it. -/
theorem Token.read_append {l : List Char} (h : '\n' ∉ l) (after : List Char) :
    (read l).1 ≠ .newline ∧ '\n' ∉ (read l).2 ∧
      read (l ++ '\n' :: after) =
        if (read l).1 = .eof then (.newline, after)
        else ((read l).1, (read l).2 ++ '\n' :: after) := by
  fun_induction read l with
  | case1 => simp [read]
  | case2 => simp at h
  | case3 rest => simp_all [read]
  | case4 c rest hnewline hcomma hblank ih =>
    have hrest := ih (fun hmem ↦ h (List.mem_cons_of_mem c hmem))
    simpa [read, hnewline, hcomma, hblank] using hrest
  | case5 rest hdrop hnewline hcomma hblank =>
    have hafter : (rest ++ '\n' :: after).dropWhile (· != '\n') = '\n' :: after := by
      rw [dropWhile_append_cons (p := (· != '\n')) (by simp), hdrop, List.nil_append]
    simp [read, hafter, Bool.eq_false_iff.2 hblank]
  | case6 rest c next hdrop =>
    rw [dropWhile_newline fun hmem ↦ h (List.mem_cons_of_mem ';' hmem)] at hdrop
    cases hdrop
  | case7 c rest hnewline hcomma hblank hsemicolon =>
    have hdelimiter : (!isDelimiter '\n') = false := by decide
    have hrest : '\n' ∉ rest.dropWhile (!isDelimiter ·) := fun hmem ↦
      h (List.mem_cons_of_mem c ((List.dropWhile_sublist _).mem hmem))
    have htake := takeWhile_append_cons (p := (!isDelimiter ·)) hdelimiter rest after
    have hdrop := dropWhile_append_cons (p := (!isDelimiter ·)) hdelimiter rest after
    simp [read, hnewline, hcomma, hblank, hsemicolon, hrest, htake, hdrop]

namespace Source

theorem line_word {text rest : List Char} {word : String}
    (h : Token.read text = (.word word, rest)) :
    line text = (word :: (line rest).1, (line rest).2) := by
  rw [line]
  split <;> simp_all

theorem line_comma {text rest : List Char} (h : Token.read text = (.comma, rest)) :
    line text = line rest := by
  rw [line]
  split <;> simp_all

theorem line_newline {text rest : List Char} (h : Token.read text = (.newline, rest)) :
    line text = ([], rest) := by
  rw [line]
  split <;> simp_all

theorem line_eof {text rest : List Char} (h : Token.read text = (.eof, rest)) :
    line text = ([], rest) := by
  rw [line]
  split <;> simp_all

/-- The words of a line do not depend on what follows its newline. -/
theorem line_append {l : List Char} (h : '\n' ∉ l) (after : List Char) :
    (line l).2 = [] ∧ line (l ++ '\n' :: after) = ((line l).1, after) := by
  induction hlength : l.length using Nat.strongRecOn generalizing l with
  | ind length ih =>
    subst hlength
    obtain ⟨hnewline, hrest, happend⟩ := Token.read_append h after
    have hshorter := Token.length_read_lt l
    have hend := Token.read_eof_rest l
    rcases hread : Token.read l with ⟨token, rest⟩
    rw [hread] at hnewline hrest happend hshorter hend
    cases token with
    | newline => exact absurd rfl hnewline
    | eof =>
      rw [line_eof hread, line_newline happend]
      exact ⟨hend rfl, rfl⟩
    | comma =>
      have hline := ih _ (hshorter (by simp)) hrest rfl
      rw [line_comma hread, line_comma happend]
      exact hline
    | word word =>
      have hline := ih _ (hshorter (by simp)) hrest rfl
      rw [line_word hread, line_word happend]
      exact ⟨hline.1, by rw [hline.2]⟩

end Source

/-- Every instruction but the last leaves a shorter text. -/
theorem Source.next_induction {motive : List Char → Prop}
    (h : ∀ text, ((next text).1.isEof = false → motive (next text).2) → motive text)
    (text : List Char) : motive text := by
  induction hlength : text.length using Nat.strongRecOn generalizing text with
  | ind length ih =>
    apply h
    intro heof
    have hshorter := length_next_lt text heof
    exact ih _ (hlength ▸ hshorter) _ rfl

namespace Source

theorem next_of_words {text rest : List Char} {operation : String} {params : List String}
    (h : line text = (operation :: params, rest)) : next text = (⟨operation, params⟩, rest) := by
  rw [next, h]

theorem next_of_blank {text rest : List Char} (h : line text = ([], rest))
    (hrest : rest.length < text.length) : next text = next rest := by
  rw [next, h]
  simp [hrest]

theorem next_of_end {text : List Char} (h : line text = ([], [])) : next text = (.eof, []) := by
  have hnil : next [] = (.eof, []) := by
    rw [next, line_eof rfl]
    rfl
  cases text with
  | nil => exact hnil
  | cons c text => rw [next_of_blank h (by simp), hnil]

/-- The instructions that a text holds, when the program ends where the text does. -/
inductive Reads : List Char → List Instruction → Prop where
  | nil {text : List Char} {i : Instruction} (next : next text = (i, [])) (eof : i.isEof = true) :
    Reads text []
  | cons {text rest : List Char} {i : Instruction} {instructions : List Instruction}
    (next : next text = (i, rest)) (more : i.isEof = false) (tail : Reads rest instructions) :
    Reads text (i :: instructions)

theorem Reads.length_le {text : List Char} {instructions : List Instruction}
    (h : Reads text instructions) : instructions.length ≤ text.length := by
  induction h with
  | nil => simp
  | @cons text rest i instructions next more tail ih =>
    have hshorter := length_next_lt text (by rw [next]; exact more)
    rw [next] at hshorter
    rw [List.length_cons]
    exact Nat.lt_of_le_of_lt ih hshorter

theorem Reads.congr {text text' : List Char} {instructions : List Instruction}
    (h : Reads text instructions) (hnext : Source.next text' = Source.next text) :
    Reads text' instructions := by
  cases h with
  | nil next eof => exact .nil (hnext.trans next) eof
  | cons next more tail => exact .cons (hnext.trans next) more tail

/-- Whether a text can be put in front of any other, and these instructions then come first. -/
def Extends (text : List Char) (instructions : List Instruction) : Prop :=
  ∀ (after : List Char) (more : List Instruction), Reads after more →
    Reads (text ++ after) (instructions ++ more)

/-- Texts that extend can be put one behind the other. -/
theorem Extends.append {text text' : List Char} {instructions instructions' : List Instruction}
    (h : Extends text instructions) (h' : Extends text' instructions') :
    Extends (text ++ text') (instructions ++ instructions') := by
  intro after more hafter
  rw [List.append_assoc, List.append_assoc]
  exact h _ _ (h' _ _ hafter)

theorem reads_nil : Reads [] [] := .nil (next_of_end (line_eof rfl)) rfl

theorem Extends.reads {text : List Char} {instructions : List Instruction}
    (h : Extends text instructions) : Reads text instructions := by
  simpa using h [] [] reads_nil

section Line

variable {l : List Char} (hl : '\n' ∉ l) (heof : (line l).1.head? ≠ some "EOF")

include hl heof

/-- The instruction of a line, if it has one. -/
theorem next?_line : (next? l).1 =
    match (line l).1 with
    | [] => none
    | operation :: params => some ⟨operation, params⟩ := by
  have hrest := (line_append hl []).1
  rcases hline : line l with ⟨words, rest⟩
  rw [hline] at hrest heof
  obtain rfl : rest = [] := hrest
  cases words with
  | nil => simp [next?, next_of_end hline, Instruction.eof, Instruction.isEof]
  | cons operation params =>
    have hne : operation ≠ "EOF" := by simpa using heof
    simp [next?, next_of_words hline, Instruction.isEof, hne]

/-- A line with its newline holds one instruction at most. -/
theorem extends_line : Extends (l ++ ['\n']) (next? l).1.toList := by
  intro after more hafter
  have hline := (line_append hl after).2
  rw [next?_line hl heof, List.append_assoc, List.singleton_append]
  cases hwords : (line l).1 with
  | nil =>
    rw [hwords] at hline
    have hshorter : after.length < (l ++ '\n' :: after).length := by
      rw [List.length_append, List.length_cons]
      omega
    exact hafter.congr (next_of_blank hline hshorter)
  | cons operation params =>
    rw [hwords] at hline heof
    have hne : operation ≠ "EOF" := by simpa using heof
    exact .cons (next_of_words hline) (by simp [Instruction.isEof, hne]) hafter

theorem reads_line : Reads l (next? l).1.toList := by
  have hrest := (line_append hl []).1
  rw [next?_line hl heof]
  rcases hline : line l with ⟨words, rest⟩
  rw [hline] at hrest heof
  obtain rfl : rest = [] := hrest
  cases words with
  | nil => exact .nil (next_of_end hline) rfl
  | cons operation params =>
    have hne : operation ≠ "EOF" := by simpa using heof
    exact .cons (next_of_words hline) (by simp [Instruction.isEof, hne]) reads_nil

end Line

end Source

namespace Machine

variable {text : List Char} {acc : List Instruction}

theorem recordBody_eof (heof : (Source.next text).1.isEof = true) :
    recordBody text acc = .complete acc.reverse (Source.next text).2 := by
  rw [recordBody]
  simp [heof]

theorem recordBody_end (heof : (Source.next text).1.isEof = false)
    (hend : endsFunction (Source.next text).1 = true) :
    recordBody text acc = .complete acc.reverse (Source.next text).2 := by
  have hfunc : (Source.next text).1.is "func" = true := (Bool.and_eq_true_iff.1 hend).1
  rw [recordBody]
  simp [heof, hfunc, hend]

/-- Another `func` spoils the recording, and is used up. -/
theorem recordBody_nested (heof : (Source.next text).1.isEof = false)
    (hfunc : (Source.next text).1.is "func" = true)
    (hend : endsFunction (Source.next text).1 = false) :
    recordBody text acc = .nested (Source.next text).2 := by
  rw [recordBody]
  simp [heof, hfunc, hend]

theorem recordBody_cons (heof : (Source.next text).1.isEof = false)
    (hfunc : (Source.next text).1.is "func" = false) :
    recordBody text acc = recordBody (Source.next text).2 ((Source.next text).1 :: acc) := by
  rw [recordBody]
  simp [heof, hfunc]

/-- The instructions of a function neither start a function nor end the program. -/
theorem plain_of_recordBody {body : List Instruction} {rest : List Char}
    (h : recordBody text acc = .complete body rest) {i : Instruction} (hi : i ∈ body) :
    i ∈ acc ∨ i.is "func" = false ∧ i.isEof = false := by
  induction text using Source.next_induction generalizing acc with
  | h text ih =>
    cases heof : (Source.next text).1.isEof with
    | true =>
      rw [recordBody_eof heof] at h
      cases h
      exact .inl (List.mem_reverse.1 hi)
    | false =>
      cases hfunc : (Source.next text).1.is "func" with
      | true =>
        cases hend : endsFunction (Source.next text).1 with
        | true =>
          rw [recordBody_end heof hend] at h
          cases h
          exact .inl (List.mem_reverse.1 hi)
        | false =>
          rw [recordBody_nested heof hfunc hend] at h
          cases h
      | false =>
        rw [recordBody_cons heof hfunc] at h
        rcases ih heof h with hmem | hplain
        · rcases List.mem_cons.1 hmem with rfl | hmem
          · exact .inr ⟨hfunc, heof⟩
          · exact .inl hmem
        · exact .inr hplain

/-- What recording makes of the instructions ahead: the body, if no other function starts inside,
and the instructions after it. -/
def cutBody : List Instruction → Option (List Instruction) × List Instruction
  | [] => (some [], [])
  | i :: rest =>
    if i.is "func" then (if endsFunction i then some [] else none, rest)
    else ((cutBody rest).1.map (i :: ·), (cutBody rest).2)

/-- Recording depends on the instructions ahead only. -/
theorem recordBody_of_reads {instructions : List Instruction} (h : Source.Reads text instructions)
    (acc : List Instruction) :
    ∃ rest, Source.Reads rest (cutBody instructions).2 ∧
      recordBody text acc = match (cutBody instructions).1 with
        | some body => .complete (acc.reverse ++ body) rest
        | none => .nested rest := by
  induction h generalizing acc with
  | @nil text i next eof =>
    refine ⟨[], Source.reads_nil, ?_⟩
    rw [recordBody_eof (by rw [next]; exact eof), next]
    simp [cutBody]
  | @cons text rest i instructions next more tail ih =>
    have heof : (Source.next text).1.isEof = false := by rw [next]; exact more
    cases hfunc : i.is "func" with
    | true =>
      refine ⟨rest, by simpa [cutBody, hfunc] using tail, ?_⟩
      cases hend : endsFunction i with
      | true =>
        rw [recordBody_end heof (by rw [next]; exact hend), next]
        simp [cutBody, hfunc, hend]
      | false =>
        rw [recordBody_nested heof (by rw [next]; exact hfunc) (by rw [next]; exact hend), next]
        simp [cutBody, hfunc, hend]
    | false =>
      obtain ⟨after, hreads, hrecord⟩ := ih (i :: acc)
      refine ⟨after, by simpa [cutBody, hfunc] using hreads, ?_⟩
      rw [recordBody_cons heof (by rw [next]; exact hfunc), next, hrecord]
      cases hbody : (cutBody instructions).1 with
      | none => simp [cutBody, hfunc, hbody]
      | some body => simp [cutBody, hfunc, hbody]

/-- Recording does not look past the next `func`. -/
theorem cutBody_append {instructions : List Instruction}
    (h : ∃ i ∈ instructions, i.is "func" = true) (after : List Instruction) :
    cutBody (instructions ++ after) =
      ((cutBody instructions).1, (cutBody instructions).2 ++ after) := by
  induction instructions with
  | nil => simp at h
  | cons i rest ih =>
    cases hfunc : i.is "func" with
    | true => simp [cutBody, hfunc]
    | false =>
      have hrest : ∃ j ∈ rest, j.is "func" = true := by simpa [hfunc] using h
      simp [cutBody, hfunc, ih hrest]

/-- What is left behind a cut was ahead before. -/
theorem cutBody_suffix (instructions : List Instruction) :
    (cutBody instructions).2 <:+ instructions := by
  induction instructions with
  | nil => exact List.suffix_refl []
  | cons i rest ih =>
    cases hfunc : i.is "func" with
    | true => simp [cutBody, hfunc]
    | false => simpa [cutBody, hfunc] using ih.trans (List.suffix_cons i rest)

end Machine

end PenMachine
