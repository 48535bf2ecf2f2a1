import PenMachine.Proofs.Congruence
import PenMachine.Proofs.Reading

/-!
# Reachable machines

The machines that arise from a new one by running programs. The embedding program may give such a
machine another program, read off what it says, change the surface between instructions and have
instructions of its own carried out, but it adds no functions. `Reachable` counts how many calls
deep the machine is, so it also covers a machine in the middle of a recorded function.

What such machines have in common is where their functions come from (`Machine.FromSource`): each is
one of the machine's own or was recorded under its own name, and recorded instructions neither start
a function nor end the program.
-/

namespace PenMachine

variable {σ : Type}

theorem Function.body_of_mem_builtins {f : Function} (h : f ∈ builtins) :
    ∃ routine, f.body = .builtin routine := by
  simp only [builtins, List.mem_cons, List.not_mem_nil, or_false] at h
  rcases h with rfl | rfl | rfl | rfl | rfl | rfl | rfl | rfl <;> exact ⟨_, rfl⟩

namespace Machine

/-- Whether every function is one of the machine's own or was recorded from a program. -/
def FromSource (m : Machine σ) : Prop :=
  ∀ (name : String) (f : Function), m.functions[name]? = some f →
    f ∈ Function.builtins ∧ f.name = name ∨
      ∃ argNames body, f = .recorded name argNames body ∧
        ∀ i ∈ body, i.is "func" = false ∧ i.isEof = false

theorem mem_of_foldl_insert {functions : List Function} {table : Std.HashMap String Function}
    {name : String} {f : Function}
    (h : (functions.foldl (fun table f ↦ table.insert f.name f) table)[name]? = some f) :
    f ∈ functions ∧ f.name = name ∨ table[name]? = some f := by
  induction functions generalizing table with
  | nil => exact .inr h
  | cons g rest ih =>
    rcases ih h with ⟨hmem, hname⟩ | hfound
    · exact .inl ⟨List.mem_cons_of_mem g hmem, hname⟩
    · rw [Std.HashMap.getElem?_insert] at hfound
      split at hfound
      · rename_i hname
        cases hfound
        exact .inl ⟨by simp, by simpa using hname⟩
      · exact .inr hfound

/-- A new machine has its own functions only. -/
theorem fromSource_initial [Surface σ] (source : String) (surface : σ) (seed : UInt64) :
    (initial source surface seed).FromSource := by
  intro name f hf
  rcases mem_of_foldl_insert hf with hown | hnone
  · exact .inl hown
  · simp at hnone

theorem fromSource_fresh (source : String) : (fresh source).FromSource := fromSource_initial _ _ _

/-- A new machine records the whole of its program as a function. -/
theorem interpret_func_fresh {source name : String} {body : List Instruction}
    (hname : planRecord name [] = .ok (.record name []))
    (hbody : recordBody source.toList [] = .complete body []) :
    (interpret ⟨"func", [name]⟩ (fresh source)).2 =
      (fresh "").define (.recorded name [] body) := by
  have hstatement : Statement.ofInstruction ⟨"func", [name]⟩ = .ok (.func name []) :=
    Statement.ofInstruction_eq_func_iff.2 ⟨Instruction.is_operation _, rfl⟩
  obtain ⟨perform?, hinterpret⟩ := exists_interpret ⟨"func", [name]⟩ (fresh source)
  rw [hinterpret, interpretWith_performed rfl hstatement hname]
  simp only [perform, fresh, initial, hbody]
  rfl

namespace FromSource

variable {m m' : Machine σ}

/-- Recorded instructions hold no `func`, so no function reads on. -/
theorem keepsText (h : m.FromSource) : m.KeepsText := by
  intro name f hf
  rcases h name f hf with ⟨hown, -⟩ | ⟨argNames, body, rfl, hbody⟩
  · obtain ⟨routine, hroutine⟩ := Function.body_of_mem_builtins hown
    rw [hroutine]
    trivial
  · exact fun i hi ↦ (hbody i hi).1

/-- A function with recorded instructions was recorded, and they are plain. -/
theorem eq_recorded (h : m.FromSource) {name : String} {f : Function} {body : List Instruction}
    (hf : m.functions[name]? = some f) (hbody : f.body = .recorded body) :
    (∃ argNames, f = .recorded name argNames body) ∧
      ∀ i ∈ body, i.is "func" = false ∧ i.isEof = false := by
  rcases h name f hf with ⟨hown, -⟩ | ⟨argNames, body', rfl, hplain⟩
  · obtain ⟨routine, hroutine⟩ := Function.body_of_mem_builtins hown
    rw [hroutine] at hbody
    cases hbody
  · cases hbody
    exact ⟨⟨argNames, rfl⟩, hplain⟩

theorem stepless (h : m.FromSource) : m.Stepless := h.keepsText.stepless

theorem apply [Surface σ] {e : Event} (allowed : e.Allowed m) (h : m.FromSource) :
    (e.apply m).FromSource := by
  intro key f hf
  rcases Event.function_cases hf with hold | ⟨argNames, body, rest, rfl, rfl⟩
  · exact h key f hold
  · refine .inr ⟨argNames, body, rfl, fun i hi ↦ ?_⟩
    simpa using plain_of_recordBody allowed hi

theorem trace [Surface σ] {events : List Event} (h : m.FromSource) (ht : Trace m events m') :
    m'.FromSource :=
  ht.invariant apply h

end FromSource

/-- What happens while a step is taken in a program that is no longer than the given text. -/
def stepEventsWithin [Surface σ] : List Char → Machine σ → List Event
  | [], _ => []
  | _ :: shorter, m =>
    .advance (Source.next m.unread).2 ::
      eventsWithin (stepWithin shorter) (maxDepth - m.depth) (Source.next m.unread).1
        { m with unread := (Source.next m.unread).2 }

def stepEvents [Surface σ] (m : Machine σ) : List Event := stepEventsWithin m.unread m

/-- A step takes the next instruction off the text, unless nothing is left, and carries it out. -/
theorem accounts_stepEvents [Surface σ] {m : Machine σ} (hm : m.Stepless) :
    Accounts m m.stepEvents m.step.1.error? m.step.2 := by
  unfold step stepEvents
  cases htext : m.unread with
  | nil => exact .nil m
  | cons c shorter =>
    have hadvance := accounts_interpretWithin (i := (Source.next m.unread).1)
      (m := { m with unread := (Source.next m.unread).2 }) (stepWithin shorter) _ rfl hm
    exact .cons (e := .advance (Source.next m.unread).2) trivial (by simp [Quiet]) rfl hadvance

theorem accounts_step [Surface σ] {m : Machine σ} (hm : m.Stepless) :
    ∃ events, Accounts m events m.step.1.error? m.step.2 :=
  ⟨m.stepEvents, accounts_stepEvents hm⟩

end Machine

/-- The machines that can arise, with the number of calls they are in. The surface is at all times
one that is possible, though the embedding program may change it between instructions. -/
inductive Reachable [Surface σ] (possible : σ → Prop) : Nat → Machine σ → Prop where
  | initial {surface : σ} (source : String) (h : possible surface) (seed : UInt64) :
    Reachable possible 0 (.initial source surface seed)
  | reset {m : Machine σ} (h : Reachable possible 0 m) (source : String) :
    Reachable possible 0 (m.reset source)
  | takeMessages {m : Machine σ} (h : Reachable possible 0 m) :
    Reachable possible 0 m.takeMessages.2
  | exchange {m : Machine σ} (h : Reachable possible 0 m) {surface : σ} (hs : possible surface) :
    Reachable possible 0 { m with surface }
  | updateSize {m : Machine σ} (h : Reachable possible 0 m) : Reachable possible 0 m.updateSize
  | step {m : Machine σ} (h : Reachable possible 0 m) : Reachable possible 0 m.step.2
  | interpret {n : Nat} {m : Machine σ} (h : Reachable possible n m) (i : Instruction) :
    Reachable possible n (m.interpret i).2
  /-- A call goes one deeper, up to the limit. -/
  | enter {n : Nat} {m : Machine σ} (h : Reachable possible n m) (hn : n < Machine.maxDepth) :
    Reachable possible (n + 1) { m with depth := m.depth + 1 }

namespace Reachable

variable [Surface σ] {possible : σ → Prop} {n : Nat} {m : Machine σ}

/-- Neither programs nor the embedding program can add any other function. -/
theorem fromSource (h : Reachable possible n m) : m.FromSource := by
  induction h with
  | initial source _ seed => exact Machine.fromSource_initial source _ seed
  | reset _ _ ih | takeMessages _ ih | exchange _ _ ih | updateSize _ ih | enter _ _ ih => exact ih
  | step _ ih =>
    obtain ⟨events, haccount⟩ := Machine.accounts_step ih.stepless
    exact ih.trace haccount.trace
  | interpret _ i ih => exact ih.trace (Machine.accounts_interpret ih.stepless).trace

/-- What holds of every possible surface and is kept by drawing holds of the surface at all
times. -/
theorem surface {I : σ → Prop} (hpossible : ∀ surface, possible surface → I surface)
    (hdraw : ∀ surface command, I surface → I (Surface.draw surface command))
    (h : Reachable possible n m) : I m.surface := by
  have hevent : ∀ {m : Machine σ} {e : Event}, e.Allowed m → I m.surface →
      I (e.apply m).surface := by
    intro m e allowed hm
    cases e with
    | draw command | refusal command error => exact hdraw _ command hm
    | _ => exact hm
  induction h with
  | initial _ h _ => exact hpossible _ h
  | exchange _ hs _ => exact hpossible _ hs
  | reset _ _ ih | takeMessages _ ih | updateSize _ ih | enter _ _ ih => exact ih
  | step h ih =>
    obtain ⟨events, haccount⟩ := Machine.accounts_step h.fromSource.stepless
    exact haccount.trace.invariant (I := fun m ↦ I m.surface) hevent ih
  | interpret h i ih =>
    have haccount := Machine.accounts_interpret (i := i) h.fromSource.stepless
    exact haccount.trace.invariant (I := fun m ↦ I m.surface) hevent ih

end Reachable

end PenMachine
