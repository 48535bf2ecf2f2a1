import PenMachine.Proofs.Evaluation
import PenMachine.Proofs.Lasting

/-!
# Onward in the text

Machines read on in their text and do nothing else with it. Whatever is carried out, what is left of
the text is what it would be if some number of instructions had been asked for (`Source.Onward`).
This holds of every machine, also of one whose functions take steps of the program
(`Machine.readsOn_step`, `Machine.readsOn_interpret`).
-/

namespace PenMachine

namespace Source

/-- Whether a text is what is left of another when some number of instructions has been asked
for. -/
def Onward (text rest : List Char) : Prop := ∃ n, rest = skip n text

theorem skip_skip (n k : Nat) (text : List Char) : skip k (skip n text) = skip (n + k) text := by
  induction n generalizing text with
  | zero => rw [Nat.zero_add, skip]
  | succ n ih => rw [Nat.succ_add, skip, skip, ih]

theorem skip_nil (n : Nat) : skip n [] = [] := by
  induction n with
  | zero => rfl
  | succ n ih => rw [skip, next_nil, ih]

namespace Onward

variable {text rest later : List Char}

theorem refl (text : List Char) : Onward text text := ⟨0, rfl⟩

theorem trans (h : Onward text rest) (h' : Onward rest later) : Onward text later := by
  obtain ⟨n, rfl⟩ := h
  obtain ⟨k, rfl⟩ := h'
  exact ⟨n + k, skip_skip n k text⟩

theorem next (text : List Char) : Onward text (next text).2 := ⟨1, rfl⟩

/-- What is ahead is the end of what was ahead. -/
theorem instructions_suffix (h : Onward text rest) :
    LineGrammar.instructions rest <:+ LineGrammar.instructions text := by
  obtain ⟨n, rfl⟩ := h
  rw [instructions_skip]
  exact List.drop_suffix n _

theorem eq_nil (h : Onward [] rest) : rest = [] := by
  obtain ⟨n, rfl⟩ := h
  exact skip_nil n

end Onward

theorem Scans.suffix {text rest : List Char} {token : Token} (h : Scans text token rest) :
    rest <:+ text := by
  induction h with
  | eof => exact List.suffix_rfl
  | blank blank inLine scan ih => exact ih.trans (List.suffix_cons _ _)
  | comment scan ih =>
    exact (ih.trans (List.dropWhile_suffix _)).trans (List.suffix_cons _ _)
  | newline rest | comma rest => exact List.suffix_cons _ rest
  | word rest blank newline comma semicolon => exact List.dropWhile_suffix _

theorem Pulls.suffix {words : List String} {text rest : List Char} {i : Instruction}
    (h : Pulls words text i rest) : rest <:+ text := by
  induction h with
  | word scan pull ih | comma scan pull ih | blank scan pull ih => exact ih.trans scan.suffix
  | newline operation params scan | last operation params scan => exact scan.suffix
  | eof scan => exact scan.suffix

theorem Pulls.onward {text rest : List Char} {i : Instruction} (h : Pulls [] text i rest) :
    Onward text rest := by
  have hnext := Onward.next text
  rwa [pulls_iff.1 h] at hnext

theorem Onward.suffix {text rest : List Char} (h : Onward text rest) : rest <:+ text := by
  obtain ⟨n, rfl⟩ := h
  induction n generalizing text with
  | zero => exact List.suffix_rfl
  | succ n ih =>
    have hpull : Pulls [] text (Source.next text).1 (Source.next text).2 := pulls_iff.2 rfl
    exact ih.trans hpull.suffix

end Source

namespace Machine

variable {σ : Type}

def Recording.rest : Recording → List Char
  | .complete _ rest | .nested rest => rest

/-- Recording asks for one instruction after another. -/
theorem Records.onward {text : List Char} {body : List Instruction} {recording : Recording}
    (h : Records text body recording) : Source.Onward text recording.rest := by
  induction h with
  | eof body pull | close body pull | nested body pull => exact pull.onward
  | next pull more plain others ih => exact pull.onward.trans ih

/-- Whether something that is done to machines reads on in their text. -/
def ReadsOn {α : Type} (run : Machine σ → α × Machine σ) : Prop :=
  ∀ m, Source.Onward m.unread (run m).2.unread

variable [Surface σ]

/-- Nothing but reading touches the text, so it is only ever read on. -/
theorem lasting_onward :
    Lasting fun m m' : Machine σ ↦ Source.Onward m.unread m'.unread where
  refl m := .refl m.unread
  trans := Source.Onward.trans
  event {m e} allowed inner := by
    cases e with
    | record name argNames body rest =>
      have hrest := (records_recordBody m.unread []).onward
      rwa [show recordBody m.unread [] = .complete body rest from allowed] at hrest
    | advance rest => exact inner.elim
    | _ => exact .refl m.unread
  draw {m _ commands} _ := by
    rw [drawAll_eq]
    exact .refl m.unread
  next m := .next m.unread
  nested {m rest} h := by
    have hrest := (records_recordBody m.unread []).onward
    rwa [h] at hrest
  depth m _ := .refl m.unread

theorem readsOn_interpret (i : Instruction) : ReadsOn (interpret i : Machine σ → _) :=
  lasting_onward.along_interpret i

/-- What a step leaves of the text comes after the instruction that it has read. -/
theorem onward_step (m : Machine σ) : Source.Onward (Source.next m.unread).2 m.step.2.unread := by
  rw [step]
  cases htext : m.unread with
  | nil =>
    rw [Source.next_nil, stepWithin, htext]
    exact .refl []
  | cons c shorter =>
    rw [stepWithin, htext]
    exact lasting_onward.along_interpretWithin (lasting_onward.along_stepWithin shorter) _ _ _

theorem readsOn_step : ReadsOn (step : Machine σ → Outcome × Machine σ) :=
  lasting_onward.along_step

end Machine

end PenMachine
