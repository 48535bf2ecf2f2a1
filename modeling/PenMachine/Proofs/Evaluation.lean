import PenMachine.Proofs.LineGrammar
import PenMachine.Proofs.Trace

/-!
# Rules of evaluation

Reading, carrying out instructions and running a program as rules, with nothing in them that bounds
how long it takes: a text is scanned as long as there are blanks and comments, a body calls other
bodies as deep as the limit lets it, and a program runs until it ends. A derivation by these rules
is a computation that comes to an end, and a computation that goes on for ever has none.

The machine's functions are total, and they give what the rules give: on every text
(`Source.pulls_iff`), and on every machine whose functions take no steps of the program
(`Machine.executes_iff`).
-/

namespace PenMachine

namespace Source

/-- The rules of scanning one token. Blanks within the line and comments are passed over. A word is
whatever stands before the next delimiter. -/
inductive Scans : List Char → Token → List Char → Prop where
  | eof : Scans [] .eof []
  | blank {c : Char} {rest after : List Char} {token : Token} (blank : Text.isBlank c = true)
    (inLine : c ≠ '\n') (scan : Scans rest token after) : Scans (c :: rest) token after
  | comment {rest after : List Char} {token : Token}
    (scan : Scans (rest.dropWhile (· != '\n')) token after) : Scans (';' :: rest) token after
  | newline (rest : List Char) : Scans ('\n' :: rest) .newline rest
  | comma (rest : List Char) : Scans (',' :: rest) .comma rest
  | word {c : Char} (rest : List Char) (blank : Text.isBlank c = false) (newline : c ≠ '\n')
    (comma : c ≠ ',') (semicolon : c ≠ ';') :
    Scans (c :: rest)
      (.word (String.ofList ((c :: rest).takeWhile (!Token.isDelimiter ·))))
      ((c :: rest).dropWhile (!Token.isDelimiter ·))

/-- The two ways of telling delimiters from words leave no character between them. -/
theorem isDelimiter_of_word {c : Char} (blank : Text.isBlank c = false) (newline : c ≠ '\n')
    (comma : c ≠ ',') (semicolon : c ≠ ';') : (!Token.isDelimiter c) = true := by
  simp [Token.isDelimiter, blank, newline, comma, semicolon]

theorem scans_read (text : List Char) : Scans text (Token.read text).1 (Token.read text).2 := by
  fun_induction Token.read text with
  | case1 => exact .eof
  | case2 rest => exact .newline rest
  | case3 rest => exact .comma rest
  | case4 c rest hnewline _ hblank ih => exact .blank hblank hnewline ih
  | case5 rest hdrop => exact .comment (hdrop ▸ .eof)
  | case6 rest c next hdrop =>
    have hfirst := List.head?_dropWhile_not (· != '\n') rest
    rw [hdrop] at hfirst
    obtain rfl : c = '\n' := by simpa using hfirst
    exact .comment (hdrop ▸ .newline next)
  | case7 c rest hnewline hcomma hblank hsemicolon =>
    have hblank : Text.isBlank c = false := by simpa using hblank
    have hword := Scans.word rest hblank hnewline hcomma hsemicolon
    have hc := isDelimiter_of_word hblank hnewline hcomma hsemicolon
    rwa [List.takeWhile_cons_of_pos (p := (!Token.isDelimiter ·)) hc,
      List.dropWhile_cons_of_pos (p := (!Token.isDelimiter ·)) hc] at hword

theorem Scans.read_eq {text rest : List Char} {token : Token} (h : Scans text token rest) :
    Token.read text = (token, rest) := by
  induction h with
  | eof | newline | comma => simp [Token.read]
  | @blank c rest after token blank inLine scan ih =>
    have hcomma : c ≠ ',' := by
      rintro rfl
      revert blank
      decide
    simpa [Token.read, inLine, hcomma, blank] using ih
  | @comment rest after token scan ih =>
    have hsemicolon : Text.isBlank ';' = false := by decide
    -- The newline that ends the comment is read along with it, so the two ways meet behind it.
    cases hdrop : rest.dropWhile (· != '\n') with
    | nil =>
      rw [hdrop] at ih
      simpa [Token.read, hsemicolon, hdrop] using ih
    | cons c next =>
      have hfirst := List.head?_dropWhile_not (· != '\n') rest
      rw [hdrop] at hfirst ih
      obtain rfl : c = '\n' := by simpa using hfirst
      simpa [Token.read, hsemicolon, hdrop] using ih
  | @word c rest blank newline comma semicolon =>
    have hc := isDelimiter_of_word blank newline comma semicolon
    rw [List.takeWhile_cons_of_pos (p := (!Token.isDelimiter ·)) hc,
      List.dropWhile_cons_of_pos (p := (!Token.isDelimiter ·)) hc]
    simp [Token.read, blank, newline, comma, semicolon]

/-- The rules of scanning leave no choice, and the scanner follows them. -/
theorem scans_iff {text rest : List Char} {token : Token} :
    Scans text token rest ↔ Token.read text = (token, rest) := by
  constructor
  · exact Scans.read_eq
  · intro h
    have hscan := scans_read text
    rwa [h] at hscan

/-- The rules of pulling one instruction off a text, given the words that have been read of it so
far. Lines without words are passed over. -/
inductive Pulls : List String → List Char → Instruction → List Char → Prop where
  | word {words : List String} {text rest after : List Char} {w : String} {i : Instruction}
    (scan : Scans text (.word w) rest) (pull : Pulls (words ++ [w]) rest i after) :
    Pulls words text i after
  | comma {words : List String} {text rest after : List Char} {i : Instruction}
    (scan : Scans text .comma rest) (pull : Pulls words rest i after) : Pulls words text i after
  | blank {text rest after : List Char} {i : Instruction} (scan : Scans text .newline rest)
    (pull : Pulls [] rest i after) : Pulls [] text i after
  | newline {text rest : List Char} (operation : String) (params : List String)
    (scan : Scans text .newline rest) : Pulls (operation :: params) text ⟨operation, params⟩ rest
  | last {text rest : List Char} (operation : String) (params : List String)
    (scan : Scans text .eof rest) : Pulls (operation :: params) text ⟨operation, params⟩ rest
  | eof {text rest : List Char} (scan : Scans text .eof rest) : Pulls [] text .eof rest

/-- The next instruction of a text when some words of it have been read already. -/
def resume (words : List String) (text : List Char) : Instruction × List Char :=
  match words ++ (line text).1 with
  | [] => next (line text).2
  | operation :: params => (⟨operation, params⟩, (line text).2)

theorem resume_nil (text : List Char) : resume [] text = next text := by
  unfold resume
  rcases hline : line text with ⟨_ | ⟨operation, params⟩, rest⟩
  · cases text with
    | nil =>
      rw [line_eof rfl] at hline
      cases hline
      rfl
    | cons c text =>
      have hshorter : (line (c :: text)).2.length < (c :: text).length :=
        length_line_lt_of_ne_nil (List.cons_ne_nil c text)
      rw [hline] at hshorter
      exact (next_of_blank hline hshorter).symm
  · exact (next_of_words hline).symm

section Resume

variable {text rest : List Char}

theorem resume_word {w : String} (h : Token.read text = (.word w, rest)) (words : List String) :
    resume words text = resume (words ++ [w]) rest := by
  simp [resume, line_word h]

theorem resume_comma (h : Token.read text = (.comma, rest)) (words : List String) :
    resume words text = resume words rest := by
  simp [resume, line_comma h]

/-- A line ends an instruction if it has words, and is passed over otherwise. -/
theorem resume_newline (h : Token.read text = (.newline, rest)) (words : List String) :
    resume words text = match words with
      | [] => next rest
      | operation :: params => (⟨operation, params⟩, rest) := by
  cases words <;> simp [resume, line_newline h]

theorem resume_eof (h : Token.read text = (.eof, rest)) (words : List String) :
    resume words text = match words with
      | [] => (.eof, rest)
      | operation :: params => (⟨operation, params⟩, rest) := by
  obtain rfl : rest = [] := by simpa [h] using Token.read_eof_rest text
  cases words <;> simp [resume, line_eof h, next_nil]

end Resume

theorem pulls_resume (words : List String) (text : List Char) :
    Pulls words text (resume words text).1 (resume words text).2 := by
  induction hlength : text.length using Nat.strongRecOn generalizing words text with
  | ind length ih =>
    subst hlength
    have hshorter := Token.length_read_lt text
    rcases hread : Token.read text with ⟨token, rest⟩
    rw [hread] at hshorter
    have hscan := scans_iff.2 hread
    cases token with
    | word w =>
      rw [resume_word hread]
      exact .word hscan (ih _ (hshorter (by simp)) _ _ rfl)
    | comma =>
      rw [resume_comma hread]
      exact .comma hscan (ih _ (hshorter (by simp)) _ _ rfl)
    | newline =>
      rw [resume_newline hread]
      cases words with
      | nil =>
        rw [← resume_nil rest]
        exact .blank hscan (ih _ (hshorter (by simp)) _ _ rfl)
      | cons operation params => exact .newline operation params hscan
    | eof =>
      rw [resume_eof hread]
      cases words with
      | nil => exact .eof hscan
      | cons operation params => exact .last operation params hscan

theorem Pulls.resume_eq {words : List String} {text rest : List Char} {i : Instruction}
    (h : Pulls words text i rest) : resume words text = (i, rest) := by
  induction h with
  | word scan pull ih => rw [resume_word (scans_iff.1 scan), ih]
  | comma scan pull ih => rw [resume_comma (scans_iff.1 scan), ih]
  | blank scan pull ih => rw [resume_newline (scans_iff.1 scan), ← resume_nil, ih]
  | newline operation params scan => rw [resume_newline (scans_iff.1 scan)]
  | last operation params scan => rw [resume_eof (scans_iff.1 scan)]
  | eof scan => rw [resume_eof (scans_iff.1 scan)]

/-- The rules of pulling an instruction, with no words read yet, are those of the text. -/
theorem pulls_iff {text rest : List Char} {i : Instruction} :
    Pulls [] text i rest ↔ next text = (i, rest) := by
  rw [← resume_nil]
  constructor
  · exact Pulls.resume_eq
  · intro h
    have hpull := pulls_resume [] text
    rwa [h] at hpull

end Source

namespace Machine

/-- The rules of recording, given the instructions recorded so far, the last one first. -/
inductive Records : List Char → List Instruction → Recording → Prop where
  | eof {text rest : List Char} {i : Instruction} (body : List Instruction)
    (pull : Source.Pulls [] text i rest) (ends : i.isEof = true) :
    Records text body (.complete body.reverse rest)
  | close {text rest : List Char} {i : Instruction} (body : List Instruction)
    (pull : Source.Pulls [] text i rest) (more : i.isEof = false) (ends : endsFunction i = true) :
    Records text body (.complete body.reverse rest)
  | nested {text rest : List Char} {i : Instruction} (body : List Instruction)
    (pull : Source.Pulls [] text i rest) (more : i.isEof = false) (func : i.is "func" = true)
    (starts : endsFunction i = false) : Records text body (.nested rest)
  | next {text rest : List Char} {i : Instruction} {body : List Instruction}
    {recording : Recording} (pull : Source.Pulls [] text i rest) (more : i.isEof = false)
    (plain : i.is "func" = false) (others : Records rest (i :: body) recording) :
    Records text body recording

theorem records_recordBody (text : List Char) (body : List Instruction) :
    Records text body (recordBody text body) := by
  induction text using Source.next_induction generalizing body with
  | h text ih =>
    have hpull : Source.Pulls [] text (Source.next text).1 (Source.next text).2 :=
      Source.pulls_iff.2 rfl
    cases heof : (Source.next text).1.isEof with
    | true =>
      rw [recordBody_eof heof]
      exact .eof body hpull heof
    | false =>
      cases hfunc : (Source.next text).1.is "func" with
      | false =>
        rw [recordBody_cons heof hfunc]
        exact .next hpull heof hfunc (ih heof _)
      | true =>
        cases hend : endsFunction (Source.next text).1 with
        | true =>
          rw [recordBody_end heof hend]
          exact .close body hpull heof hend
        | false =>
          rw [recordBody_nested heof hfunc hend]
          exact .nested body hpull heof hfunc hend

theorem Records.recordBody_eq {text : List Char} {body : List Instruction} {recording : Recording}
    (h : Records text body recording) : recordBody text body = recording := by
  induction h with
  | eof body pull ends =>
    have hnext := Source.pulls_iff.1 pull
    rw [recordBody_eof (by rw [hnext]; exact ends), hnext]
  | close body pull more ends =>
    have hnext := Source.pulls_iff.1 pull
    rw [recordBody_end (by rw [hnext]; exact more) (by rw [hnext]; exact ends), hnext]
  | nested body pull more func starts =>
    have hnext := Source.pulls_iff.1 pull
    rw [recordBody_nested (by rw [hnext]; exact more) (by rw [hnext]; exact func)
      (by rw [hnext]; exact starts), hnext]
  | next pull more plain others ih =>
    have hnext := Source.pulls_iff.1 pull
    rw [recordBody_cons (by rw [hnext]; exact more) (by rw [hnext]; exact plain), hnext]
    exact ih

/-! ## Carrying out instructions -/

variable {σ : Type}

/-- What there is to carry out: an instruction, or what is left of the body that an instruction has
called. -/
inductive Job where
  | instruction (i : Instruction)
  | body (caller : Instruction) (rest : List Instruction)

/-- Whether an instruction makes a statement and that comes to an action. -/
def ComesTo (i : Instruction) (m : Machine σ) (a : Action) : Prop :=
  i.isEof = false ∧ ∃ s, Statement.ofInstruction i = .ok s ∧ m.plan s = .ok a

theorem ComesTo.allowed {i : Instruction} {m : Machine σ} {a : Action} (h : ComesTo i m a) :
    a.Allowed m := by
  obtain ⟨-, s, -, hplan⟩ := h
  exact (plans_of_plan hplan).allowed

/-- The rules of carrying out a job. Only the depth of calls is limited. -/
inductive Executes [Surface σ] : Job → Machine σ → Outcome → Machine σ → Prop where
  | eof {i : Instruction} {m : Machine σ} (ends : i.isEof = true) :
    Executes (.instruction i) m .eof m
  | rejected {i : Instruction} {m : Machine σ} {rejection : Rejection} (more : i.isEof = false)
    (statement : Statement.ofInstruction i = .error rejection) :
    Executes (.instruction i) m .failed (m.say .warn rejection.text)
  | refused {i : Instruction} {m : Machine σ} {s : Statement} {fault : Fault}
    (more : i.isEof = false) (statement : Statement.ofInstruction i = .ok s)
    (plan : m.plan s = .error fault) :
    Executes (.instruction i) m .failed (m.refuse i.operation fault)
  | recorded {i : Instruction} {m : Machine σ} {name : String} {argNames : List String}
    {body : List Instruction} {rest : List Char} (comes : ComesTo i m (.record name argNames))
    (record : Records m.unread [] (.complete body rest)) :
    Executes (.instruction i) m (.executed i)
      ({ m with unread := rest }.define (.recorded name argNames body))
  | nested {i : Instruction} {m : Machine σ} {name : String} {argNames : List String}
    {rest : List Char} (comes : ComesTo i m (.record name argNames))
    (record : Records m.unread [] (.nested rest)) :
    Executes (.instruction i) m .failed
      ({ m with unread := rest }.refuse i.operation .nestedFunction)
  /-- An action that neither records nor starts a body is performed alike however bodies are
  run. -/
  | performed {i : Instruction} {m m' : Machine σ} {a : Action} {outcome : Outcome}
    (comes : ComesTo i m a) (plain : ∀ name argNames, a ≠ .record name argNames)
    (perform : ∀ step deeper, perform step deeper i m a = (outcome, m')) :
    Executes (.instruction i) m outcome m'
  | tooDeep {i : Instruction} {m : Machine σ} {f : Function} {args : List Number}
    {body : List Instruction} (comes : ComesTo i m (.invoke f args))
    (hbody : f.body = .recorded body) (deep : maxDepth ≤ m.depth) :
    Executes (.instruction i) m .failed (m.refuse i.operation (.callDepth f.name))
  | call {i : Instruction} {m m' : Machine σ} {f : Function} {args : List Number}
    {body : List Instruction} {outcome : Outcome} (comes : ComesTo i m (.invoke f args))
    (hbody : f.body = .recorded body) (room : m.depth < maxDepth)
    (run : Executes (.body i body) { m with depth := m.depth + 1 } outcome m') :
    Executes (.instruction i) m outcome { m' with depth := m.depth }
  | done {caller : Instruction} {m : Machine σ} :
    Executes (.body caller []) m (.executed caller) m
  | fatal {caller i : Instruction} {rest : List Instruction} {m m' : Machine σ} {error : Error}
    (first : Executes (.instruction i) m (.fatal error) m') :
    Executes (.body caller (i :: rest)) m (.fatal error) m'
  | ret {caller i : Instruction} {rest : List Instruction} {m m' : Machine σ} {outcome : Outcome}
    (first : Executes (.instruction i) m outcome m') (alive : outcome.error? = none)
    (returns : i.is "ret" = true) : Executes (.body caller (i :: rest)) m (.executed caller) m'
  | next {caller i : Instruction} {rest : List Instruction} {m m₁ m' : Machine σ}
    {outcome outcome' : Outcome} (first : Executes (.instruction i) m outcome m₁)
    (alive : outcome.error? = none) (stays : i.is "ret" = false)
    (others : Executes (.body caller rest) m₁ outcome' m') :
    Executes (.body caller (i :: rest)) m outcome' m'

/-- What the machine makes of a job, given how a routine of the embedding program takes a step. -/
def carryOut [Surface σ] (step : Machine σ → Outcome × Machine σ) :
    Job → Machine σ → Outcome × Machine σ
  | .instruction i, m => interpretWithin step (maxDepth - m.depth) i m
  | .body caller rest, m =>
    executedUnless caller (runBody (interpretWithin step (maxDepth - m.depth)) rest m)

section Rules

variable [Surface σ] {step : Machine σ → Outcome × Machine σ} {i caller : Instruction}
  {rest : List Instruction} {m : Machine σ}

/-- An instruction is carried out as the action that it comes to. -/
theorem carryOut_of_comesTo (step : Machine σ → Outcome × Machine σ) {a : Action}
    (h : ComesTo i m a) :
    ∃ deeper, carryOut step (.instruction i) m = perform step deeper i m a := by
  obtain ⟨heof, s, hs, hplan⟩ := h
  obtain ⟨deeper, hwith⟩ := exists_interpretWith step (maxDepth - m.depth)
  exact ⟨deeper, by rw [carryOut, hwith, interpretWith_performed heof hs hplan]⟩

/-- At the limit a call is refused. -/
theorem carryOut_tooDeep {f : Function} {args : List Number} {body : List Instruction}
    (comes : ComesTo i m (.invoke f args)) (recorded : f.body = .recorded body)
    (deep : maxDepth ≤ m.depth) :
    carryOut step (.instruction i) m = (.failed, m.refuse i.operation (.callDepth f.name)) := by
  obtain ⟨heof, s, hs, hplan⟩ := comes
  have hroom : maxDepth - m.depth = 0 := Nat.sub_eq_zero_of_le deep
  rw [carryOut, hroom, interpretWithin, interpretWith_performed heof hs hplan, perform, invoke,
    recorded]

/-- Below the limit a call runs the body one call deeper. -/
theorem carryOut_call {f : Function} {args : List Number} {body : List Instruction}
    (comes : ComesTo i m (.invoke f args)) (recorded : f.body = .recorded body)
    (room : m.depth < maxDepth) :
    carryOut step (.instruction i) m =
      ((carryOut step (.body i body) { m with depth := m.depth + 1 }).1,
        { (carryOut step (.body i body) { m with depth := m.depth + 1 }).2 with
          depth := m.depth }) := by
  obtain ⟨heof, s, hs, hplan⟩ := comes
  obtain ⟨less, hless⟩ : ∃ n, maxDepth - m.depth = n + 1 := ⟨maxDepth - m.depth - 1, by omega⟩
  have hdeeper : maxDepth - (m.depth + 1) = less := by omega
  rw [carryOut, hless, interpretWithin, interpretWith_performed heof hs hplan, perform, invoke,
    recorded]
  simp only [carryOut, hdeeper]
  rcases runBody (interpretWithin step less) body { m with depth := m.depth + 1 } with
    ⟨_ | error, m'⟩ <;> rfl

theorem carryOut_fatal {error : Error}
    (h : (carryOut step (.instruction i) m).1 = .fatal error) :
    carryOut step (.body caller (i :: rest)) m = carryOut step (.instruction i) m := by
  simp only [carryOut] at h ⊢
  rw [runBody]
  rcases hrun : interpretWithin step (maxDepth - m.depth) i m with ⟨outcome, m₁⟩
  rw [hrun] at h
  obtain rfl : outcome = .fatal error := h
  rfl

/-- A `ret` ends a body, also when it is refused. -/
theorem carryOut_ret (halive : (carryOut step (.instruction i) m).1.error? = none)
    (hret : i.is "ret" = true) :
    carryOut step (.body caller (i :: rest)) m =
      (.executed caller, (carryOut step (.instruction i) m).2) := by
  simp only [carryOut] at halive ⊢
  rw [runBody]
  rcases hrun : interpretWithin step (maxDepth - m.depth) i m with ⟨outcome, m₁⟩
  rw [hrun] at halive
  cases outcome with
  | fatal error => cases halive
  | eof | executed | failed => simp [hret, executedUnless]

/-- The rest of a body goes on where its first instruction has left the machine, at the same
depth. -/
theorem carryOut_next (halive : (carryOut step (.instruction i) m).1.error? = none)
    (hret : i.is "ret" = false)
    (hdepth : (carryOut step (.instruction i) m).2.depth = m.depth) :
    carryOut step (.body caller (i :: rest)) m =
      carryOut step (.body caller rest) (carryOut step (.instruction i) m).2 := by
  simp only [carryOut] at halive hdepth ⊢
  rw [runBody]
  rcases hrun : interpretWithin step (maxDepth - m.depth) i m with ⟨outcome, m₁⟩
  rw [hrun] at halive hdepth
  have hroom : maxDepth - m₁.depth = maxDepth - m.depth := by rw [hdepth]
  cases outcome with
  | fatal error => cases halive
  | eof | executed | failed => simp [hret, hroom]

/-- An instruction leaves the depth as it was, and no function takes steps afterwards either. -/
theorem carryOut_instruction (step : Machine σ → Outcome × Machine σ) (i : Instruction)
    (hm : m.Stepless) :
    (carryOut step (.instruction i) m).2.depth = m.depth ∧
      (carryOut step (.instruction i) m).2.Stepless := by
  have haccount := accounts_interpretWithin (i := i) step _ rfl hm
  exact ⟨haccount.depth, hm.trace haccount.trace⟩

end Rules

/-! ## The rules and the machine -/

section Agreement

variable [Surface σ] {m m' : Machine σ} {job : Job} {i : Instruction} {outcome : Outcome}

/-- The rules give nothing but what the machine makes of a job. -/
theorem Executes.carryOut_eq (h : Executes job m outcome m') (hm : m.Stepless)
    (step : Machine σ → Outcome × Machine σ) : carryOut step job m = (outcome, m') := by
  induction h with
  | @eof i m ends =>
    obtain ⟨deeper, hwith⟩ := exists_interpretWith step (maxDepth - m.depth)
    rw [carryOut, hwith, interpretWith_eof ends]
  | @rejected i m rejection more statement =>
    obtain ⟨deeper, hwith⟩ := exists_interpretWith step (maxDepth - m.depth)
    rw [carryOut, hwith, interpretWith_rejected more statement]
  | @refused i m s fault more statement plan =>
    obtain ⟨deeper, hwith⟩ := exists_interpretWith step (maxDepth - m.depth)
    rw [carryOut, hwith, interpretWith_refused more statement plan]
  | recorded comes record =>
    obtain ⟨deeper, hperform⟩ := carryOut_of_comesTo step comes
    rw [hperform, perform, record.recordBody_eq]
  | nested comes record =>
    obtain ⟨deeper, hperform⟩ := carryOut_of_comesTo step comes
    rw [hperform, perform, record.recordBody_eq]
  | performed comes plain perform =>
    obtain ⟨deeper, hperform⟩ := carryOut_of_comesTo step comes
    exact hperform.trans (perform step deeper)
  | tooDeep comes recorded deep => exact carryOut_tooDeep comes recorded deep
  | call comes recorded room run ih => rw [carryOut_call comes recorded room, ih hm]
  | done => rfl
  | fatal first ih =>
    have hfirst := ih hm
    rw [carryOut_fatal (by rw [hfirst]), hfirst]
  | ret first alive returns ih =>
    have hfirst := ih hm
    rw [carryOut_ret (by rw [hfirst]; exact alive) returns, hfirst]
  | @next caller i rest m m₁ m' _ _ first alive stays others ih ihOthers =>
    have hfirst := ih hm
    obtain ⟨hdepth, hstepless⟩ := carryOut_instruction step i hm
    rw [carryOut_next (by rw [hfirst]; exact alive) stays hdepth]
    rw [hfirst] at hstepless ⊢
    exact ihOthers hstepless

/-- A body has a derivation when its instructions have, at the depth of the body. -/
theorem executes_body {step : Machine σ → Outcome × Machine σ} {depth : Nat}
    (hinstruction : ∀ (i : Instruction) (m : Machine σ), m.depth = depth → m.Stepless →
      Executes (.instruction i) m (carryOut step (.instruction i) m).1
        (carryOut step (.instruction i) m).2)
    (caller : Instruction) (body : List Instruction) (hdepth : m.depth = depth)
    (hm : m.Stepless) :
    Executes (.body caller body) m (carryOut step (.body caller body) m).1
      (carryOut step (.body caller body) m).2 := by
  induction body generalizing m with
  | nil => exact .done
  | cons i rest ih =>
    have hfirst := hinstruction i m hdepth hm
    obtain ⟨hkept, hstepless⟩ := carryOut_instruction step i hm
    cases hend : (carryOut step (.instruction i) m).1.error? with
    | some error =>
      have hfatal : (carryOut step (.instruction i) m).1 = .fatal error := by
        cases houtcome : (carryOut step (.instruction i) m).1 <;> simp_all
      rw [carryOut_fatal hfatal]
      rw [hfatal] at hfirst ⊢
      exact .fatal hfirst
    | none =>
      cases hret : i.is "ret" with
      | true =>
        rw [carryOut_ret hend hret]
        exact .ret hfirst hend hret
      | false =>
        rw [carryOut_next hend hret hkept]
        exact .next hfirst hend hret (ih (hkept.trans hdepth) hstepless)

/-- The actions that start no body are performed alike however bodies are run. -/
theorem perform_alike {a : Action} (hm : m.Stepless) (ha : a.Allowed m)
    (hbody : ∀ f args body, a = .invoke f args → f.body ≠ .recorded body)
    (step step' : Machine σ → Outcome × Machine σ)
    (deeper deeper' : Option (Instruction → Machine σ → Outcome × Machine σ)) :
    perform step deeper i m a = perform step' deeper' i m a := by
  cases a with
  | invoke f args =>
    obtain ⟨name, hname, -⟩ := ha
    have hstepless := hm name f hname
    rw [perform, perform, invoke, invoke]
    cases hkind : f.body with
    | builtin routine => rfl
    | host routine =>
      rw [hkind] at hstepless
      obtain ⟨value, hvalue⟩ := hstepless args
      simp only [hvalue, runHost]
    | recorded body => exact absurd hkind (hbody f args body rfl)
  | _ => rfl

theorem executes_record {step : Machine σ → Outcome × Machine σ} {name : String}
    {argNames : List String} (comes : ComesTo i m (.record name argNames)) :
    Executes (.instruction i) m (carryOut step (.instruction i) m).1
      (carryOut step (.instruction i) m).2 := by
  have hrecords := records_recordBody m.unread []
  obtain ⟨deeper, hperform⟩ := carryOut_of_comesTo step comes
  rw [hperform, perform]
  cases hbody : recordBody m.unread [] with
  | complete body rest =>
    rw [hbody] at hrecords
    exact .recorded comes hrecords
  | nested rest =>
    rw [hbody] at hrecords
    exact .nested comes hrecords

/-- An action has a derivation when every body has one that it may start. -/
theorem executes_of_comesTo {step : Machine σ → Outcome × Machine σ} (hm : m.Stepless)
    (hbodies : m.depth < maxDepth → ∀ body : List Instruction,
      Executes (.body i body) { m with depth := m.depth + 1 }
        (carryOut step (.body i body) { m with depth := m.depth + 1 }).1
        (carryOut step (.body i body) { m with depth := m.depth + 1 }).2)
    {a : Action} (comes : ComesTo i m a) :
    Executes (.instruction i) m (carryOut step (.instruction i) m).1
      (carryOut step (.instruction i) m).2 := by
  -- Calling a recorded function is the only action that needs derivations of bodies.
  by_cases hrecorded : ∃ f args body, a = .invoke f args ∧ f.body = .recorded body
  · obtain ⟨f, args, body, rfl, recorded⟩ := hrecorded
    by_cases hroom : m.depth < maxDepth
    · rw [carryOut_call comes recorded hroom]
      exact .call comes recorded hroom (hbodies hroom body)
    · have hdeep : maxDepth ≤ m.depth := Nat.le_of_not_lt hroom
      rw [carryOut_tooDeep comes recorded hdeep]
      exact .tooDeep comes recorded hdeep
  by_cases hrecord : ∃ name argNames, a = .record name argNames
  · obtain ⟨name, argNames, rfl⟩ := hrecord
    exact executes_record comes
  · have hplain : ∀ name argNames, a ≠ .record name argNames := by
      intro name argNames ha
      exact hrecord ⟨name, argNames, ha⟩
    have hbody : ∀ f args body, a = .invoke f args → f.body ≠ .recorded body := by
      intro f args body ha hf
      exact hrecorded ⟨f, args, body, ha, hf⟩
    obtain ⟨deeper, hperform⟩ := carryOut_of_comesTo step comes
    refine .performed comes hplain fun step' deeper' ↦ ?_
    rw [perform_alike hm comes.allowed hbody step' step deeper' deeper, ← hperform]

/-- Every instruction has a derivation. The induction is on the depth that is left for calls, and
inside it on what is left of a body. -/
theorem executes_carryOut (step : Machine σ → Outcome × Machine σ) {room : Nat}
    (hroom : maxDepth - m.depth = room) (i : Instruction) (hm : m.Stepless) :
    Executes (.instruction i) m (carryOut step (.instruction i) m).1
      (carryOut step (.instruction i) m).2 := by
  induction room using Nat.strongRecOn generalizing i m with
  | ind room ih =>
    have hbodies : m.depth < maxDepth → ∀ body : List Instruction,
        Executes (.body i body) { m with depth := m.depth + 1 }
          (carryOut step (.body i body) { m with depth := m.depth + 1 }).1
          (carryOut step (.body i body) { m with depth := m.depth + 1 }).2 := by
      intro hlt body
      have hdeeper : ∀ (j : Instruction) (m' : Machine σ), m'.depth = m.depth + 1 → m'.Stepless →
          Executes (.instruction j) m' (carryOut step (.instruction j) m').1
            (carryOut step (.instruction j) m').2 := by
        intro j m' hdepth hm'
        exact ih (maxDepth - m'.depth) (by omega) rfl j hm'
      exact executes_body (m := { m with depth := m.depth + 1 }) hdeeper i body rfl hm
    obtain ⟨deeper, hwith⟩ := exists_interpretWith step (maxDepth - m.depth)
    cases heof : i.isEof with
    | true =>
      rw [carryOut, hwith, interpretWith_eof heof]
      exact .eof heof
    | false =>
      cases hs : Statement.ofInstruction i with
      | error rejection =>
        rw [carryOut, hwith, interpretWith_rejected heof hs]
        exact .rejected heof hs
      | ok s =>
        cases hplan : m.plan s with
        | error fault =>
          rw [carryOut, hwith, interpretWith_refused heof hs hplan]
          exact .refused heof hs hplan
        | ok a => exact executes_of_comesTo hm hbodies ⟨heof, s, hs, hplan⟩

/-- The rules and the machine agree on every instruction. -/
theorem executes_iff (hm : m.Stepless) (step : Machine σ → Outcome × Machine σ) :
    Executes (.instruction i) m outcome m' ↔
      interpretWithin step (maxDepth - m.depth) i m = (outcome, m') := by
  constructor
  · exact fun h ↦ h.carryOut_eq hm step
  · intro h
    have hexecutes := executes_carryOut step rfl i hm
    rwa [carryOut, h] at hexecutes

end Agreement

/-- The rule of taking a step. -/
def Steps [Surface σ] (m : Machine σ) (outcome : Outcome) (m' : Machine σ) : Prop :=
  ∃ (i : Instruction) (rest : List Char), Source.Pulls [] m.unread i rest ∧
    Executes (.instruction i) { m with unread := rest } outcome m'

/-- The rules of running a program, given how many steps have been counted. The second number is how
many steps follow that are not the end of the program. -/
inductive Runs [Surface σ] : Nat → Machine σ → Nat → Except Error Nat → Machine σ → Prop where
  | eof {count : Nat} {m m' : Machine σ} (step : Steps m .eof m') : Runs count m 0 (.ok count) m'
  | fatal {count : Nat} {m m' : Machine σ} {error : Error} (step : Steps m (.fatal error) m') :
    Runs count m 1 (.error error) m'
  | next {count n : Nat} {m m₁ m' : Machine σ} {outcome : Outcome} {result : Except Error Nat}
    (step : Steps m outcome m₁) (more : outcome ≠ .eof) (alive : outcome.error? = none)
    (rest : Runs (count + 1) m₁ n result m') : Runs count m (n + 1) result m'

variable [Surface σ] {m m' : Machine σ} {outcome : Outcome}

/-- A step takes the next instruction off the text and carries it out, also when nothing is left. -/
theorem exists_step (m : Machine σ) : ∃ step : Machine σ → Outcome × Machine σ,
    m.step = interpretWithin step (maxDepth - m.depth) (Source.next m.unread).1
      { m with unread := (Source.next m.unread).2 } := by
  rw [step]
  cases htext : m.unread with
  | nil =>
    obtain ⟨deeper, hwith⟩ := exists_interpretWith (stepWithin [] : Machine σ → Outcome × Machine σ)
      (maxDepth - m.depth)
    refine ⟨stepWithin [], ?_⟩
    rw [hwith, Source.next_nil, interpretWith_eof rfl, stepWithin, ← htext]
  | cons c shorter => exact ⟨stepWithin shorter, by rw [stepWithin, htext]⟩

/-- Any text that is long enough will do at the end of the program. -/
theorem stepWithin_of_isEof {text : List Char} (hlength : m.unread.length ≤ text.length)
    (h : (Source.next m.unread).1.isEof = true) :
    stepWithin text m = (.eof, { m with unread := (Source.next m.unread).2 }) := by
  cases text with
  | nil =>
    have hnil : m.unread = [] := List.eq_nil_of_length_eq_zero (Nat.le_zero.1 hlength)
    rw [stepWithin, hnil, Source.next_nil, ← hnil]
  | cons c shorter =>
    obtain ⟨deeper, hwith⟩ := exists_interpretWith
      (stepWithin shorter : Machine σ → Outcome × Machine σ) (maxDepth - m.depth)
    simp only [stepWithin, hwith, interpretWith_eof h]

theorem step_of_isEof (h : (Source.next m.unread).1.isEof = true) :
    m.step = (.eof, { m with unread := (Source.next m.unread).2 }) :=
  stepWithin_of_isEof (Nat.le_refl _) h

/-- The rule of taking a step leaves no choice either. -/
theorem steps_iff (hm : m.Stepless) : Steps m outcome m' ↔ m.step = (outcome, m') := by
  obtain ⟨step, hstep⟩ := exists_step m
  have hread : Stepless { m with unread := (Source.next m.unread).2 } := hm
  rw [hstep]
  constructor
  · rintro ⟨i, rest, hpull, hrun⟩
    have hnext := Source.pulls_iff.1 hpull
    rw [hnext] at hread ⊢
    exact (executes_iff hread step).1 hrun
  · intro h
    exact ⟨_, _, Source.pulls_iff.2 rfl, (executes_iff hread step).2 h⟩

theorem steps_step (hm : m.Stepless) : Steps m m.step.1 m.step.2 := (steps_iff hm).2 rfl

end Machine

end PenMachine
