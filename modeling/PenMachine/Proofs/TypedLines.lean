import Mathlib.Data.List.Basic
import PenMachine.Proofs.Console
import PenMachine.Proofs.Output

/-!
# Typed lines

The console neither loses nor repeats a line. It passes a line on at once or keeps it with the ones
before it, so at any moment the programs it has read and the lines it keeps are all that was typed
(`exists_parts`). The kept lines are always a function that has not ended (`Pending.Gathers`), and
only the end of the input makes a program of such a function. All other programs are a line that
starts no function or a function up to the first line that ends it.

The programs are texts, but no typed line has a newline in it, so they can be taken apart again
(`linesOf_completeLines`).
-/

namespace PenMachine.Terminal

/-- The lines of a text that are closed. -/
def linesOf (text : String) : List String :=
  (text.toList.splitOn '\n').dropLast.map String.ofList

/-- Lines that were closed can be told apart again. -/
theorem linesOf_completeLines {lines : List String} (h : ∀ line ∈ lines, '\n' ∉ line.toList) :
    linesOf (completeLines lines) = lines := by
  induction lines with
  | nil => rfl
  | cons line rest ih =>
    have htext : (completeLines (line :: rest)).toList =
        line.toList ++ '\n' :: (completeLines rest).toList := by
      simp [completeLines]
    have hrest : linesOf (completeLines rest) = rest := by
      apply ih
      intro other hother
      exact h other (List.mem_cons_of_mem line hother)
    calc linesOf (completeLines (line :: rest))
        = (line.toList :: (completeLines rest).toList.splitOn '\n').dropLast.map
            String.ofList := by
          rw [linesOf, htext, LineGrammar.splitOn_append_cons (h line List.mem_cons_self)]
      _ = line :: linesOf (completeLines rest) := by
          rw [List.dropLast_cons_of_ne_nil (List.splitOn_ne_nil _ _), List.map_cons,
            String.ofList_toList, linesOf]
      _ = line :: rest := by rw [hrest]

theorem join_completeLines (parts : List (List String)) :
    String.join (parts.map completeLines) = completeLines parts.flatten := by
  induction parts with
  | nil => rfl
  | cons part rest ih =>
    rw [List.map_cons, String.join_cons, ih, List.flatten_cons, completeLines_append]

/-- Lines of a function that has not ended. -/
structure OpenFunction (lines : List String) : Prop where
  starts : ∃ header ∈ lines.head?, lineStartsFunction header = true
  goesOn : ∀ line ∈ lines, lineEndsFunction line = false

/-- Lines that are read as a program before the input ends: one that starts no function, or a
function with the line that ends it. -/
def IsProgram (lines : List String) : Prop :=
  (∃ line, lines = [line] ∧ lineStartsFunction line = false) ∨
    ∃ body last, lines = body ++ [last] ∧ OpenFunction body ∧ lineEndsFunction last = true

theorem lineEndsFunction_of_starts {line : String} (h : lineStartsFunction line = true) :
    lineEndsFunction line = false := by
  rw [lineStartsFunction, Bool.and_eq_true, Bool.not_eq_true'] at h
  exact h.2

theorem openFunction_header {line : String} (h : lineStartsFunction line = true) :
    OpenFunction [line] := by
  refine ⟨⟨line, rfl, h⟩, ?_⟩
  intro other hother
  rw [List.mem_singleton.1 hother]
  exact lineEndsFunction_of_starts h

/-- A function goes on until a line ends it. -/
theorem OpenFunction.append {lines : List String} (h : OpenFunction lines) {line : String}
    (hline : lineEndsFunction line = false) : OpenFunction (lines ++ [line]) := by
  obtain ⟨header, hheader, hstarts⟩ := h.starts
  refine ⟨⟨header, ?_, hstarts⟩, ?_⟩
  · exact List.mem_head?_append_of_mem_head? hheader
  · intro other hother
    rcases List.mem_append.1 hother with hother | hother
    · exact h.goesOn other hother
    · rw [List.mem_singleton.1 hother]
      exact hline

/-- Whether just these lines are pending. -/
def Pending.Gathers : Pending → List String → Prop
  | none, lines => lines = []
  | some text, lines => text = completeLines lines ∧ OpenFunction lines

/-- A typed line is kept with the pending ones, or all of them are a program and nothing is kept. -/
theorem Pending.type_gathers {pending : Pending} {kept : List String} (h : pending.Gathers kept)
    (line : String) :
    match pending.type line with
    | (none, later) => later.Gathers (kept ++ [line])
    | (some source, later) => later.Gathers [] ∧ source = completeLines (kept ++ [line]) ∧
        IsProgram (kept ++ [line]) := by
  cases pending with
  | none =>
    obtain rfl : kept = [] := h
    have htext : line ++ "\n" = completeLines ([] ++ [line]) := by simp [completeLines]
    cases hstarts : lineStartsFunction line with
    | true =>
      simp only [Pending.type, hstarts, if_true]
      exact ⟨htext, openFunction_header hstarts⟩
    | false =>
      simp only [Pending.type, hstarts, Bool.false_eq_true, if_false]
      exact ⟨rfl, htext, .inl ⟨line, rfl, hstarts⟩⟩
  | some text =>
    obtain ⟨rfl, hopen⟩ := h
    have htext : completeLines kept ++ line ++ "\n" = completeLines (kept ++ [line]) := by
      simp [completeLines_append, completeLines, String.append_assoc]
    cases hends : lineEndsFunction line with
    | false =>
      simp only [Pending.type, hends, Bool.false_eq_true, if_false]
      exact ⟨htext, hopen.append hends⟩
    | true =>
      simp only [Pending.type, hends, if_true]
      exact ⟨rfl, htext, .inr ⟨kept, line, rfl, hopen, hends⟩⟩

/-- Whether parts of the input are programs, of which the last may have been cut off. -/
inductive Programs : List (List String) → Prop where
  | nil : Programs []
  | cutOff {part : List String} (goesOn : OpenFunction part) : Programs [part]
  | cons {part : List String} {rest : List (List String)} (whole : IsProgram part)
    (later : Programs rest) : Programs (part :: rest)

theorem Programs.tail {part : List String} {rest : List (List String)}
    (h : Programs (part :: rest)) : Programs rest := by
  cases h with
  | cutOff goesOn => exact .nil
  | cons whole later => exact later

/-- Only the last part can be a function without its end. -/
theorem Programs.at {before : List (List String)} {part : List String}
    {after : List (List String)} (h : Programs (before ++ part :: after)) :
    IsProgram part ∨ after = [] ∧ OpenFunction part := by
  induction before with
  | nil =>
    cases h with
    | cutOff goesOn => exact .inr ⟨rfl, goesOn⟩
    | cons whole later => exact .inl whole
  | cons first before ih => exact ih h.tail

/-- The pending lines and those still to be typed are cut into programs, each line into one. -/
theorem exists_parts {pending : Pending} {kept : List String} (h : pending.Gathers kept)
    (lines : List String) :
    ∃ parts, parts.flatten = kept ++ lines ∧ sources pending lines = parts.map completeLines ∧
      Programs parts := by
  induction lines generalizing pending kept with
  | nil =>
    rw [List.append_nil, sources]
    cases pending with
    | none =>
      obtain rfl : kept = [] := h
      exact ⟨[], rfl, rfl, .nil⟩
    | some text =>
      obtain ⟨rfl, hopen⟩ := h
      exact ⟨[kept], by simp, rfl, .cutOff hopen⟩
  | cons line rest ih =>
    have htype := Pending.type_gathers h line
    rw [sources]
    rcases htyped : pending.type line with ⟨_ | source, later⟩
    · rw [htyped] at htype
      obtain ⟨parts, hflatten, hsources, hprograms⟩ := ih htype
      refine ⟨parts, ?_, hsources, hprograms⟩
      rw [hflatten, List.append_assoc, List.singleton_append]
    · rw [htyped] at htype
      obtain ⟨hlater, rfl, hwhole⟩ := htype
      obtain ⟨parts, hflatten, hsources, hprograms⟩ := ih hlater
      refine ⟨(kept ++ [line]) :: parts, ?_, ?_, .cons hwhole hprograms⟩
      · rw [List.flatten_cons, hflatten, List.nil_append, List.append_assoc,
          List.singleton_append]
      · rw [List.map_cons, ← hsources]
        rfl

/-- Runs programs one after another as the console does. -/
def runPrograms (verbose : Bool) (sources : List String) (m : Machine Canvas) : Machine Canvas :=
  sources.foldl (fun m source ↦ (runProgram m (.blank verbose) source).1) m

/-- A console that takes in lines and the end of the input runs the programs that the lines are cut
into, and keeps nothing. -/
theorem Console.enter_eq (console : Console) (lines : List String) :
    console.enter lines = ⟨runPrograms console.verbose (sources console.pending lines)
      console.machine, console.verbose, none⟩ := by
  induction lines generalizing console with
  | nil =>
    rcases console with ⟨machine, verbose, pending⟩
    cases pending with
    | none => rfl
    | some text => rfl
  | cons line rest ih =>
    rw [Console.enter, ih, Console.type, sources]
    rcases console.pending.type line with ⟨_ | source, later⟩
    · rfl
    · rfl

/-- The console neither loses nor repeats a line. For all lines without newlines, the programs that
they are cut into are, one behind the other, the lines with a newline behind each. Each program is
some of the lines: one that starts no function, or a function up to the first line that ends it. The
last program may also be a function that has not ended when the input does. A console that takes in
the lines and the end of the input runs just these programs, and keeps nothing. -/
theorem console_keeps_every_line {lines : List String}
    (hlines : ∀ line ∈ lines, '\n' ∉ line.toList) :
    String.join (sources none lines) = completeLines lines ∧
    (sources none lines).flatMap linesOf = lines ∧
    (∀ before source after, sources none lines = before ++ source :: after →
      completeLines (linesOf source) = source ∧
        (IsProgram (linesOf source) ∨ after = [] ∧ OpenFunction (linesOf source))) ∧
    ∀ (m : Machine Canvas) (verbose : Bool),
      (Console.mk m verbose none).enter lines =
        ⟨runPrograms verbose (sources none lines) m, verbose, none⟩ := by
  have hnone : Pending.Gathers none [] := rfl
  obtain ⟨parts, hflatten, hsources, hprograms⟩ := exists_parts hnone lines
  rw [List.nil_append] at hflatten
  have hparts : ∀ part ∈ parts, linesOf (completeLines part) = part := by
    intro part hpart
    apply linesOf_completeLines
    intro line hline
    apply hlines line
    rw [← hflatten]
    exact List.mem_flatten_of_mem hpart hline
  refine ⟨?_, ?_, ?_, fun m verbose ↦ Console.enter_eq _ lines⟩
  · rw [hsources, join_completeLines, hflatten]
  · calc (sources none lines).flatMap linesOf
        = (parts.map fun part ↦ linesOf (completeLines part)).flatten := by
          rw [hsources, List.flatMap_map, List.flatMap_def]
      _ = parts.flatten := by rw [List.map_congr_left hparts, List.map_id']
      _ = lines := hflatten
  · intro before source after hat
    rw [hsources] at hat
    obtain ⟨first, rest, rfl, rfl, hrest⟩ := List.map_eq_append_iff.1 hat
    obtain ⟨part, later, rfl, rfl, rfl⟩ := List.map_eq_cons_iff.1 hrest
    rw [hparts part (by simp), List.map_eq_nil_iff]
    exact ⟨rfl, hprograms.at⟩

/-- Lines with an end that nothing started, a start inside a function, and a start without an
end. -/
def strayAndMissingEnds : List String :=
  ["func end", "FUNC f", "func g", "fill", " Func, END ; g", "strk", "func h", "fill"]

/-- The stray end is a program of its own, and the end of the input ends the last function. -/
theorem strayAndMissingEnds_kept :
    (∀ line ∈ strayAndMissingEnds, '\n' ∉ line.toList) ∧
    sources none strayAndMissingEnds =
      ["func end\n", "FUNC f\nfunc g\nfill\n Func, END ; g\n", "strk\n", "func h\nfill\n"] ∧
    String.join (sources none strayAndMissingEnds) = completeLines strayAndMissingEnds ∧
    IsProgram (linesOf "FUNC f\nfunc g\nfill\n Func, END ; g\n") := by
  have hlines : ∀ line ∈ strayAndMissingEnds, '\n' ∉ line.toList := by decide
  have hsources : sources none strayAndMissingEnds =
      ["func end\n", "FUNC f\nfunc g\nfill\n Func, END ; g\n", "strk\n", "func h\nfill\n"] := by
    decide +kernel
  obtain ⟨hjoin, -, hprograms, -⟩ := console_keeps_every_line hlines
  obtain ⟨-, hwhole | ⟨hlast, -⟩⟩ := hprograms ["func end\n"] _ _ hsources
  · exact ⟨hlines, hsources, hjoin, hwhole⟩
  · cases hlast

end PenMachine.Terminal
