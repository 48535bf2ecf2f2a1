import PenMachine.Instruction
import PenMachine.Text.Blank

/-!
# Program text

A program is read from its unread characters alone. Words are maximal runs of characters that are
neither blank nor one of newline, comma and semicolon; a semicolon hides the rest of its line, and
commas separate words without meaning anything else. The words of one line make an instruction, and
lines without words are skipped.

Reading always moves forward: each token but the end shortens the text (`Token.length_read_lt`), and
so does each instruction but the last (`Source.length_next_lt`).
-/

namespace PenMachine

inductive Token where
  | word (text : String)
  | comma
  | newline
  | eof
  deriving DecidableEq

namespace Token

def toText : Token → String
  | .word text => text
  | .comma => ","
  | .newline => "\\n"
  | .eof => "EOF"

/-- Whether a character ends a word. -/
def isDelimiter (c : Char) : Bool := c == '\n' || c == ',' || c == ';' || Text.isBlank c

/-- The first token of a text and what follows it. -/
def read : List Char → Token × List Char
  | [] => (.eof, [])
  | c :: rest =>
    if c = '\n' then (.newline, rest)
    else if c = ',' then (.comma, rest)
    else if Text.isBlank c then read rest
    else if c = ';' then
      match rest.dropWhile (· != '\n') with
      | [] => (.eof, [])
      | _ :: next => (.newline, next)
    else
      (.word (String.ofList (c :: rest.takeWhile (!isDelimiter ·))),
        rest.dropWhile (!isDelimiter ·))

theorem length_dropWhile_le {α : Type} (p : α → Bool) (l : List α) :
    (l.dropWhile p).length ≤ l.length :=
  (List.dropWhile_sublist p).length_le

theorem length_read_lt (text : List Char) (h : (read text).1 ≠ .eof) :
    (read text).2.length < text.length := by
  fun_induction read text with
  | case1 => simp at h
  | case2 => simp
  | case3 => simp
  | case4 c rest _ _ _ ih => exact Nat.lt_succ_of_lt (ih h)
  | case5 => simp at h
  | case6 rest _ _ _ next heq =>
    have := length_dropWhile_le (· != '\n') rest
    simp_all
    omega
  | case7 c rest =>
    exact Nat.lt_succ_of_le (length_dropWhile_le _ rest)

theorem read_eof_rest (text : List Char) (h : (read text).1 = .eof) : (read text).2 = [] := by
  fun_induction read text with
  | case4 c rest _ _ _ ih => exact ih h
  | case1 | case5 => rfl
  | case2 | case3 | case6 | case7 => simp at h

end Token

namespace Source

/-- The words up to the end of the line, and the text after it. -/
def line (text : List Char) : List String × List Char :=
  match _ : Token.read text with
  | (.word word, rest) =>
    let (words, after) := line rest
    (word :: words, after)
  | (.comma, rest) => line rest
  | (.newline, rest) | (.eof, rest) => ([], rest)
termination_by text.length
decreasing_by
  all_goals
    have := Token.length_read_lt text
    simp_all

theorem length_line_le (text : List Char) : (line text).2.length ≤ text.length := by
  fun_induction line text with
  | case1 text word rest h words after hline ih =>
    have := Token.length_read_lt text (by simp [h])
    simp_all
    omega
  | case2 text rest h ih =>
    have := Token.length_read_lt text (by simp [h])
    simp_all
    omega
  | case3 text rest h =>
    have := Token.length_read_lt text (by simp [h])
    simp_all
    omega
  | case4 text rest h =>
    have := Token.read_eof_rest text (by simp [h])
    simp_all

theorem length_line_lt (text : List Char) (h : (line text).1 ≠ []) :
    (line text).2.length < text.length := by
  fun_induction line text with
  | case1 text word rest hread words after hline ih =>
    have h₁ := Token.length_read_lt text (by simp [hread])
    have h₂ := length_line_le rest
    simp_all
    omega
  | case2 text rest hread ih =>
    have := Token.length_read_lt text (by simp [hread])
    simp_all
    omega
  | case3 | case4 => simp at h

/-- The next instruction and the text after it. Once no words are left this is `Instruction.eof`, as
often as it is asked for. -/
def next (text : List Char) : Instruction × List Char :=
  match line text with
  | (operation :: params, rest) => (⟨operation, params⟩, rest)
  | ([], rest) => if rest.length < text.length then next rest else (.eof, rest)
termination_by text.length

/-- An instruction that does not end the program takes something off the text. -/
theorem length_next_lt (text : List Char) (h : (next text).1.isEof = false) :
    (next text).2.length < text.length := by
  fun_induction next text with
  | case1 text operation params rest hline =>
    have := length_line_lt text (by simp [hline])
    simp_all
  | case2 text rest hline hlt ih => exact Nat.lt_trans (ih h) hlt
  | case3 => simp [Instruction.eof, Instruction.isEof] at h

/-- The next instruction, none at the end of the program, and the text after it. -/
def next? (text : List Char) : Option Instruction × List Char :=
  let (i, rest) := next text
  (if i.isEof then none else some i, rest)

/-- The instructions of a text up to the first one that ends the program, and the text after
that. -/
def takeAll (text : List Char) : List Instruction × List Char :=
  match _ : next text with
  | (i, rest) =>
    if i.isEof then ([], rest)
    else
      let (all, after) := takeAll rest
      (i :: all, after)
termination_by text.length
decreasing_by
  have := length_next_lt text
  simp_all

/-- The instructions of a text up to the first one that ends the program. -/
def instructions (text : List Char) : List Instruction := (takeAll text).1

def tokens (text : List Char) : List Token :=
  match _ : Token.read text with
  | (token, rest) => if token = .eof then [.eof] else token :: tokens rest
termination_by text.length
decreasing_by
  have := Token.length_read_lt text
  simp_all

end Source

end PenMachine
