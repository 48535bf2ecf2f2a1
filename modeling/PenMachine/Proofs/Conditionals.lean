import PenMachine.Proofs.Attempts

/-!
# Conditions and the order of numbers

A comparison packs what it finds into four flags, `$cmp` keeps them as a number, and a condition
unpacks that number again when it is asked for. Here it is said that nothing is lost on the way: a
condition holds just when its relation holds between the two numbers as they were compared
(`Condition.holds_compare`), and it goes on to do so until the next comparison is carried out,
whatever happens meanwhile (`Threads.cmp_eq`). Under a condition that holds, a conditional
instruction does what it does without the condition, and otherwise it does nothing
(`Machine.conditions_follow_comparison`).
-/

namespace PenMachine

theorem Number.eq_symm (x y : Number) : x.eq y = y.eq x := by
  cases x <;> cases y <;> simp [eq, Bool.beq_comm]

theorem Number.lt_asymm {x y : Number} (h : x.lt y = true) : y.lt x = false := by
  cases x with
  | nan => cases h
  | infinity negative =>
    cases y with
    | nan => rfl
    | infinity negative' => cases negative <;> cases negative' <;> simp [lt] at h ⊢
    | finite => simpa [lt] using h
  | finite negative quanta =>
    cases y with
    | nan => rfl
    | infinity negative' => simpa [lt] using h
    | finite negative' quanta' =>
      have hlt : signed negative quanta < signed negative' quanta' := of_decide_eq_true h
      simp only [lt, decide_eq_false_iff_not]
      omega

namespace Condition

/-- The relation between the numbers compared that a condition asks for. -/
def relates : Condition → Number → Number → Bool
  | .equal, x, y => x.eq y
  | .notEqual, x, y => !x.eq y
  | .greater, x, y => y.lt x
  | .greaterEqual, x, y => y.le x
  | .lesser, x, y => x.lt y
  | .lesserEqual, x, y => x.le y

/-- A NaN is different from every number and in no order with any. -/
theorem relates_of_isNaN {x y : Number} (h : x.isNaN = true ∨ y.isNaN = true) (c : Condition) :
    c.relates x y = true ↔ c = .notEqual := by
  rcases h with h | h
  · cases x with
    | nan => cases c <;> cases y <;> simp [relates, Number.eq, Number.lt, Number.le]
    | infinity | finite => cases h
  · cases y with
    | nan => cases c <;> cases x <;> simp [relates, Number.eq, Number.lt, Number.le]
    | infinity | finite => cases h

/-- What the conditions ask of the flags, when numbers are not both greater and lesser. -/
theorem holds_flags (c : Condition) {greater lesser equal : Bool}
    (h : (greater && lesser) = false) :
    c.holds ((if greater then .greater else if lesser then .lesser else .none) |||
      (if equal then .equal else .notEqual)) =
      match c with
      | .equal => equal
      | .notEqual => !equal
      | .greater => greater
      | .greaterEqual => greater || equal
      | .lesser => lesser
      | .lesserEqual => lesser || equal := by
  revert greater lesser equal
  cases c <;> decide

/-- The flags of a comparison tell what the order of the numbers is. -/
theorem holds_compare (c : Condition) (x y : Number) :
    c.holds (.compare x y) = c.relates x y := by
  have hexclusive : (y.lt x && x.lt y) = false := by
    cases hgreater : y.lt x with
    | true => exact Number.lt_asymm hgreater
    | false => rfl
  rw [Flags.compare, holds_flags c hexclusive]
  cases c with
  | greaterEqual => rw [relates, Number.le, Number.eq_symm y x]
  | equal | notEqual | greater | lesser | lesserEqual => rfl

end Condition

/-- `$cmp` holds all the flags. -/
theorem Flags.ofByte_toNumber (flags : Flags) : ofByte flags.toNumber.toByte = flags := by
  obtain ⟨bits⟩ := flags
  revert bits
  decide +kernel

theorem Statement.isEof_of_ofInstruction {i : Instruction} {s : Statement}
    (h : ofInstruction i = .ok s) : i.isEof = false := by
  rw [← Bool.not_eq_true]
  intro heof
  rw [ofInstruction_of_isEof heof] at h
  cases h

namespace Statement

variable {i : Instruction} {condition : Condition}

theorem ofInstruction_eq_compare_iff {left right : String} :
    ofInstruction i = .ok (.compare left right) ↔
      i.is "cmp" = true ∧ i.params = [left, right] :=
  ofInstruction_eq_ok_iff_is .compare rfl (by decide) (by decide)

theorem ofInstruction_eq_callWhen_iff {name : String} {args : List String} :
    ofInstruction i = .ok (.callWhen condition name args) ↔
      i.is ("c" ++ condition.suffix) = true ∧ i.params = name :: args :=
  ofInstruction_eq_ok_iff_is (.callWhen condition) rfl (Operation.hasOnlyName_callWhen condition)
    nofun

theorem ofInstruction_eq_setWhen_iff {name value : String} :
    ofInstruction i = .ok (.setWhen condition name value) ↔
      i.is ("s" ++ condition.suffix) = true ∧ i.params = [name, value] :=
  ofInstruction_eq_ok_iff_is (.setWhen condition) rfl (Operation.hasOnlyName_setWhen condition)
    nofun

end Statement

namespace Machine

variable {σ : Type}

/-- Whether two instructions have come to the same. Each is reported as itself, and when they are
refused it is for the same fault, each under its own name. -/
inductive SameEffect (i j : Instruction) : Outcome × Machine σ → Outcome × Machine σ → Prop where
  | executed (m : Machine σ) : SameEffect i j (.executed i, m) (.executed j, m)
  | failed (m : Machine σ) (fault : Fault) :
    SameEffect i j (.failed, m.refuse i.operation fault) (.failed, m.refuse j.operation fault)
  | fatal (error : Error) (m : Machine σ) : SameEffect i j (.fatal error, m) (.fatal error, m)

theorem sameEffect_executedUnless (i j : Instruction) (r : Option Error × Machine σ) :
    SameEffect i j (executedUnless i r) (executedUnless j r) := by
  obtain ⟨_ | error, m⟩ := r
  · exact .executed m
  · exact .fatal error m

section SameEffect

variable [Surface σ] {step : Machine σ → Outcome × Machine σ}
  {deeper : Option (Instruction → Machine σ → Outcome × Machine σ)} {i j : Instruction}
  {m : Machine σ}

/-- An action does the same on behalf of any instruction. -/
theorem sameEffect_perform (a : Action) :
    SameEffect i j (perform step deeper i m a) (perform step deeper j m a) := by
  cases a with
  | skip | setRegister | removeVariable | log => exact .executed _
  | setVariable => exact sameEffect_executedUnless i j _
  | record name argNames =>
    rw [perform, perform]
    cases recordBody m.unread [] with
    | complete body rest => exact .executed _
    | nested rest => exact .failed _ _
  | invoke f args =>
    rw [perform, perform, invoke, invoke]
    cases f.body with
    | builtin routine => exact .executed _
    | host routine => exact .executed _
    | recorded body =>
      cases deeper with
      | none => exact .failed m _
      | some perform => exact sameEffect_executedUnless i j _
  | draw commands => exact sameEffect_executedUnless i j _

/-- Statements that come to the same action do the same. -/
theorem sameEffect_interpretWith {s s' : Statement} (hs : Statement.ofInstruction i = .ok s)
    (hs' : Statement.ofInstruction j = .ok s') (hplan : m.plan s = m.plan s') :
    SameEffect i j (interpretWith step deeper i m) (interpretWith step deeper j m) := by
  have heof := Statement.isEof_of_ofInstruction hs
  have heof' := Statement.isEof_of_ofInstruction hs'
  cases hplan' : m.plan s' with
  | error fault =>
    rw [interpretWith_refused heof hs (hplan.trans hplan'),
      interpretWith_refused heof' hs' hplan']
    exact .failed m fault
  | ok a =>
    rw [interpretWith_performed heof hs (hplan.trans hplan'),
      interpretWith_performed heof' hs' hplan']
    exact sameEffect_perform a

/-- A statement that comes to what another does under a condition, and to nothing without it. -/
theorem interpretWithin_when {s s' : Statement} (hs : Statement.ofInstruction i = .ok s)
    (hs' : Statement.ofInstruction j = .ok s') {holds : Bool}
    (hplan : m.plan s = if holds then m.plan s' else .ok .skip)
    (step : Machine σ → Outcome × Machine σ) (room : Nat) :
    (holds = true →
      SameEffect i j (interpretWithin step room i m) (interpretWithin step room j m)) ∧
    (holds = false → interpretWithin step room i m = (.executed i, m)) := by
  obtain ⟨deeper, hwith⟩ := exists_interpretWith step room
  rw [hwith]
  constructor
  · rintro rfl
    exact sameEffect_interpretWith hs hs' hplan
  · rintro rfl
    rw [interpretWith_performed (Statement.isEof_of_ofInstruction hs) hs hplan]
    rfl

end SameEffect

end Machine

section Course

variable {σ : Type} [Surface σ]

namespace Attempt

variable {a : Attempt σ}

/-- A comparison leaves the flags of the numbers that it found in `$cmp`. -/
theorem cmp_effect_of_compare {left right : String}
    (h : Statement.ofInstruction a.instruction = .ok (.compare left right)) :
    a.effect.registers.get .cmp =
      (Flags.compare (a.machine.valueOf left) (a.machine.valueOf right)).toNumber := by
  cases Machine.effect_cases a with
  | compare stated eq =>
    obtain ⟨rfl, rfl⟩ : left = _ ∧ right = _ := by simpa [h] using stated
    rw [eq, Machine.setRegister, Registers.get_set, if_pos rfl]
  | draw calls =>
    obtain ⟨-, s, hs, hplan⟩ := Machine.invoked?_eq_some_iff.1 calls
    obtain rfl : s = _ := by simpa [h] using hs.symm
    cases hplan
  | other silent => exact absurd h (silent left right)

/-- A `cmp` that has not its two operands is no comparison. -/
theorem cmp_effect_of_not_cmp
    (h : ¬ (a.instruction.is "cmp" = true ∧ a.instruction.params.length = 2)) :
    a.effect.registers.get .cmp = a.machine.registers.get .cmp := by
  cases Machine.effect_cases a with
  | compare stated =>
    obtain ⟨hcmp, hparams⟩ := Statement.ofInstruction_eq_compare_iff.1 stated
    exact absurd ⟨hcmp, by rw [hparams]; rfl⟩ h
  | draw calls body eq =>
    rw [eq]
    exact (Steady.setRegister a.machine.drawRandom.2 (by decide) _).cmp
  | other silent still steady => exact steady.cmp

end Attempt

/-- The machine when the next of some instructions is taken up, or the last one if none is. -/
def nextMachine (m : Machine σ) : List (Attempt σ) → Machine σ
  | [] => m
  | a :: _ => a.machine

/-- `$cmp` is what the last comparison has left in it. -/
theorem Threads.cmp_eq {before middle rest : List (Attempt σ)} {compared : Attempt σ}
    {m m' : Machine σ} (h : Threads (before ++ compared :: middle ++ rest) m m')
    (hmiddle : ∀ a ∈ middle,
      ¬ (a.instruction.is "cmp" = true ∧ a.instruction.params.length = 2)) :
    (nextMachine m' rest).registers.get .cmp = compared.effect.registers.get .cmp := by
  obtain ⟨m₂, hfirst, hrest⟩ := h.split
  obtain ⟨m₁, -, hcompared⟩ := hfirst.split
  have hcmp : m₂.registers.get .cmp = compared.effect.registers.get .cmp := by
    refine hcompared.2.invariant
      (P := fun m ↦ m.registers.get .cmp = compared.effect.registers.get .cmp) ?_ ?_ rfl
    · intro m m' hsteady hm
      exact hsteady.cmp.trans hm
    · intro a ha hm
      exact (Attempt.cmp_effect_of_not_cmp (hmiddle a ha)).trans hm
  cases rest with
  | nil => exact hrest.cmp.trans hcmp
  | cons a rest => exact hrest.1.cmp.trans hcmp

/-- Take two words that are compared, in the course of whatever a machine is made to do, and let no
other `cmp` be carried out until now. Then each condition goes by the order of the numbers that the
words denoted. Where its relation holds, `c` with its suffix does what `call` would do and `s` with
its suffix what `set` would do. Otherwise they are carried out and change nothing. This is so
wherever the instruction stands, at top level or in a function at any depth. With a NaN, also for a
word that denotes no number, just one of the relations holds. -/
theorem Machine.conditions_follow_comparison {m m' : Machine σ}
    {before middle rest : List (Attempt σ)} {compared : Attempt σ} {left right : String}
    (h : Course m (before ++ compared :: middle ++ rest) m')
    (hcmp : compared.instruction.is "cmp" = true)
    (hparams : compared.instruction.params = [left, right])
    (hmiddle : ∀ a ∈ middle,
      ¬ (a.instruction.is "cmp" = true ∧ a.instruction.params.length = 2))
    (condition : Condition) :
    let x := compared.machine.valueOf left
    let y := compared.machine.valueOf right
    let now := nextMachine m' rest
    (∀ (i : Instruction) (name : String) (args : List String),
      i.is ("c" ++ condition.suffix) = true → i.params = name :: args → ∀ step room,
        (condition.relates x y = true →
          SameEffect i ⟨"call", name :: args⟩ (interpretWithin step room i now)
            (interpretWithin step room ⟨"call", name :: args⟩ now)) ∧
        (condition.relates x y = false → interpretWithin step room i now = (.executed i, now))) ∧
    (∀ (i : Instruction) (name value : String),
      i.is ("s" ++ condition.suffix) = true → i.params = [name, value] → ∀ step room,
        (condition.relates x y = true →
          SameEffect i ⟨"set", [name, value]⟩ (interpretWithin step room i now)
            (interpretWithin step room ⟨"set", [name, value]⟩ now)) ∧
        (condition.relates x y = false → interpretWithin step room i now = (.executed i, now))) ∧
    (x.isNaN = true ∨ y.isNaN = true → (condition.relates x y = true ↔ condition = .notEqual)) := by
  intro x y now
  have hflags : now.registers.flags = .compare x y := by
    have hkept := h.threads.cmp_eq hmiddle
    have hs := Statement.ofInstruction_eq_compare_iff.2 ⟨hcmp, hparams⟩
    rw [Attempt.cmp_effect_of_compare hs] at hkept
    rw [Registers.flags, hkept, Flags.ofByte_toNumber]
  have hholds : condition.holds now.registers.flags = condition.relates x y := by
    rw [hflags, Condition.holds_compare]
  refine ⟨fun i name args hi hi' ↦ ?_, fun i name value hi hi' ↦ ?_,
    fun hnan ↦ Condition.relates_of_isNaN hnan condition⟩
  · have hs' : Statement.ofInstruction ⟨"call", name :: args⟩ = .ok (.call name args) :=
      Statement.ofInstruction_eq_call_iff.2 ⟨Instruction.is_operation _, rfl⟩
    apply interpretWithin_when (Statement.ofInstruction_eq_callWhen_iff.2 ⟨hi, hi'⟩) hs'
    rw [← hholds]
    rfl
  · have hs' : Statement.ofInstruction ⟨"set", [name, value]⟩ = .ok (.set name value) :=
      Statement.ofInstruction_eq_set_iff.2 ⟨Instruction.is_operation _, rfl⟩
    apply interpretWithin_when (Statement.ofInstruction_eq_setWhen_iff.2 ⟨hi, hi'⟩) hs'
    rw [← hholds]
    rfl

end Course

namespace Machine

/-- Two is no less than one, and still so when the canvas has been filled: one instruction does what
`set` does, and the other is passed over. -/
theorem conditions_after_fill :
    let m := fresh ""
    let compared := (interpret ⟨"cmp", ["2", "1"]⟩ m).2
    let now := (interpret ⟨"fill", []⟩ compared).2
    SameEffect ⟨"SGE", ["$.x", "5"]⟩ ⟨"set", ["$.x", "5"]⟩ (interpret ⟨"SGE", ["$.x", "5"]⟩ now)
        (interpret ⟨"set", ["$.x", "5"]⟩ now) ∧
      interpret ⟨"cle", ["rand"]⟩ now = (.executed ⟨"cle", ["rand"]⟩, now) := by
  intro m compared now
  have hcourse :
      Course m ([] ++ ⟨⟨"cmp", ["2", "1"]⟩, m⟩ :: [⟨⟨"fill", []⟩, compared⟩] ++ []) now := by
    have hnone : invoked? ⟨"cmp", ["2", "1"]⟩ m = none := rfl
    have hnone' : invoked? ⟨"fill", []⟩ compared = none := rfl
    have hfirst : taken ⟨"cmp", ["2", "1"]⟩ m = [⟨⟨"cmp", ["2", "1"]⟩, m⟩] :=
      takenWithin_eq_singleton (by simp [hnone]) _
    have hsecond : taken ⟨"fill", []⟩ compared = [⟨⟨"fill", []⟩, compared⟩] :=
      takenWithin_eq_singleton (by simp [hnone']) _
    have hall := ((Course.start m).serve (.interpret ⟨"cmp", ["2", "1"]⟩)).serve
      (.interpret ⟨"fill", []⟩)
    simp only [Request.taken, Request.serve, hfirst, List.nil_append] at hall
    rwa [hsecond] at hall
  have hmiddle : ∀ a ∈ [(⟨⟨"fill", []⟩, compared⟩ : Attempt Canvas)],
      ¬ (a.instruction.is "cmp" = true ∧ a.instruction.params.length = 2) := by
    simp
  have hgreater : Condition.relates .greaterEqual (m.valueOf "2") (m.valueOf "1") = true := by
    decide +kernel
  have hlesser : Condition.relates .lesserEqual (m.valueOf "2") (m.valueOf "1") = false := by
    decide +kernel
  have hcmp : Instruction.is ⟨"cmp", ["2", "1"]⟩ "cmp" = true := by decide
  obtain ⟨-, hset, -⟩ := conditions_follow_comparison hcourse hcmp rfl hmiddle .greaterEqual
  obtain ⟨hcall, -⟩ := conditions_follow_comparison hcourse hcmp rfl hmiddle .lesserEqual
  constructor
  · exact (hset ⟨"SGE", ["$.x", "5"]⟩ "$.x" "5" (by decide) rfl (stepWithin now.unread)
      (maxDepth - now.depth)).1 hgreater
  · exact (hcall ⟨"cle", ["rand"]⟩ "rand" [] (by decide) rfl (stepWithin now.unread)
      (maxDepth - now.depth)).2 hlesser

end Machine

end PenMachine
