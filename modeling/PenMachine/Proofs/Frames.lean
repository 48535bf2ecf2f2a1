import PenMachine.Proofs.Failures

/-!
# What an instruction can change

Every operation but a call and `func` has a frame: a register, a variable or the surface that it may
change, and it leaves everything else as it was. `Operation.Frame` lists the frames once, operation
by operation. An instruction stays within the frame of its operation whatever its parameters are and
however it ends (`Machine.frame_interpret`), because a statement that is refused only says so, and
an action behind the checks makes the one change that its statement is for.

The operations are found by their names, and those of operators and conditions are put together from
parts. The main result (`Machine.operations_keep_to_frame`) goes by the names alone, so it also says
that each of them leads to the right operation.
-/

namespace PenMachine

variable {σ : Type}

/-- Machines with the same functions, text to read, depth and random numbers. -/
structure KeepsControl (m m' : Machine σ) : Prop where
  functions : m'.functions = m.functions
  unread : m'.unread = m.unread
  depth : m'.depth = m.depth
  random : m'.random = m.random

/-- A change of what has been said and of nothing else. -/
def OnlyMessages (m m' : Machine σ) : Prop := ∃ transcript, m' = { m with transcript }

/-- No register but that of the given name changes, no variable and nothing on the surface. -/
structure OnlyRegister (name : String) (m m' : Machine σ) : Prop where
  registers : ∀ r : Register, r.name ≠ name → m'.registers.get r = m.registers.get r
  vars : m'.vars = m.vars
  surface : m'.surface = m.surface

/-- No variable but that of the given name changes, if there is a name, no register and nothing on
the surface. -/
structure OnlyVariable (name? : Option String) (m m' : Machine σ) : Prop where
  vars : ∀ name, name? ≠ some name → m'.vars.get? name = m.vars.get? name
  registers : m'.registers = m.registers
  surface : m'.surface = m.surface

/-- Up to so many commands are drawn and nothing else changes. If the instruction is refused there
are none, and there is nothing to say unless it is. If the surface raises an error, it does so over
the last of the commands. -/
structure OnlySurface [Surface σ] (most : Nat) (outcome : Outcome) (m m' : Machine σ) : Prop where
  registers : m'.registers = m.registers
  vars : m'.vars = m.vars
  said : outcome ≠ .failed → m'.transcript = m.transcript
  drawn : ∃ commands : List Command, m'.surface = commands.foldl Surface.draw m.surface ∧
    commands.length ≤ most ∧ (outcome = .failed → commands = []) ∧
    ∀ error, outcome = .fatal error → ∃ taken refused, commands = taken ++ [refused] ∧
      Surface.refusal? (taken.foldl Surface.draw m.surface) refused = some error

/-- What an operation may change, given its first parameter. Calls and `func` have no frame. -/
def Operation.Frame [Surface σ] (first? : Option String) (outcome : Outcome) (m m' : Machine σ) :
    Operation → Prop
  | .operate op => OnlyRegister op.register.name m m'
  | .ret => OnlyRegister "$ret" m m'
  | .compare => OnlyRegister "$cmp" m m'
  | .set | .setWhen _ => OnlyVariable first? m m'
  | .update _ =>
    OnlyVariable first? m m' ∧ ∀ name, m'.vars.contains name = m.vars.contains name
  | .del =>
    OnlyVariable first? m m' ∧
      ∀ name, m'.vars.get? name = m.vars.get? name ∨ m'.vars.get? name = none
  | .path | .fill | .stroke | .move | .width | .color => OnlySurface 1 outcome m m'
  | .line => OnlySurface 2 outcome m m'
  | .print | .dump => OnlyMessages m m'
  | .call | .callWhen _ | .func => True

namespace OnlyMessages

variable {m m' : Machine σ}

theorem refl (m : Machine σ) : OnlyMessages m m := ⟨m.transcript, rfl⟩

theorem say (h : OnlyMessages m m') (level : Level) (text : String) :
    OnlyMessages m (m'.say level text) := by
  obtain ⟨transcript, rfl⟩ := h
  exact ⟨_, rfl⟩

theorem refuse (m : Machine σ) (operation : String) (fault : Fault) :
    OnlyMessages m (m.refuse operation fault) :=
  ((refl m).say _ _).say _ _

theorem log (m : Machine σ) (lines : List String) :
    OnlyMessages m (lines.foldl (fun m line ↦ m.say .log line) m) :=
  ⟨_, Machine.foldl_say lines m⟩

theorem keepsControl (h : OnlyMessages m m') : KeepsControl m m' := by
  obtain ⟨transcript, rfl⟩ := h
  exact ⟨rfl, rfl, rfl, rfl⟩

theorem onlyRegister (h : OnlyMessages m m') (name : String) : OnlyRegister name m m' := by
  obtain ⟨transcript, rfl⟩ := h
  exact ⟨fun _ _ ↦ rfl, rfl, rfl⟩

theorem onlyVariable (h : OnlyMessages m m') (name? : Option String) :
    OnlyVariable name? m m' := by
  obtain ⟨transcript, rfl⟩ := h
  exact ⟨fun _ _ ↦ rfl, rfl, rfl⟩

theorem vars (h : OnlyMessages m m') : m'.vars = m.vars := by
  obtain ⟨transcript, rfl⟩ := h
  rfl

/-- An instruction that is refused draws nothing. -/
theorem onlySurface [Surface σ] (h : OnlyMessages m m') (most : Nat) :
    OnlySurface most .failed m m' := by
  obtain ⟨transcript, rfl⟩ := h
  exact ⟨rfl, rfl, by simp, [], rfl, Nat.zero_le most, by simp, by simp⟩

/-- A refusal is within every frame. -/
theorem frame [Surface σ] (h : OnlyMessages m m') (first? : Option String)
    (operation : Operation) : operation.Frame first? .failed m m' := by
  cases operation with
  | operate | ret | compare => exact h.onlyRegister _
  | set | setWhen => exact h.onlyVariable _
  | update => exact ⟨h.onlyVariable _, fun name ↦ by rw [h.vars]⟩
  | del => exact ⟨h.onlyVariable _, fun name ↦ .inl (by rw [h.vars])⟩
  | path | fill | stroke | move | width | color | line => exact h.onlySurface _
  | print | dump => exact h
  | call | callWhen | func => trivial

end OnlyMessages

namespace Machine

variable (m : Machine σ)

theorem onlyRegister_setRegister (r : Register) (value : Number) :
    OnlyRegister r.name m (m.setRegister r value) := by
  refine ⟨fun r' hr ↦ ?_, rfl, rfl⟩
  rw [setRegister, Registers.get_set, if_neg]
  rintro rfl
  exact hr rfl

theorem onlyVariable_insert (name : String) (value : Number) :
    OnlyVariable (some name) m { m with vars := m.vars.insert name value } := by
  refine ⟨fun other hother ↦ ?_, rfl, rfl⟩
  have hne : name ≠ other := fun heq ↦ hother (congrArg some heq)
  simp [Variables.get?, Variables.insert, Std.HashMap.getElem?_insert, hne]

theorem onlyVariable_erase (name : String) :
    OnlyVariable (some name) m { m with vars := m.vars.erase name } := by
  refine ⟨fun other hother ↦ ?_, rfl, rfl⟩
  have hne : name ≠ other := fun heq ↦ hother (congrArg some heq)
  simp [Variables.get?, Variables.erase, Std.HashMap.getElem?_erase, hne]

/-- Drawing stops at the first command that is refused and changes nothing but the surface. -/
theorem exists_drawAll [Surface σ] (commands : List Command) :
    ∃ drawn : List Command,
      (drawAll commands m).2 = { m with surface := drawn.foldl Surface.draw m.surface } ∧
      drawn.length ≤ commands.length ∧
      ∀ error, (drawAll commands m).1 = some error → ∃ taken refused, drawn = taken ++ [refused] ∧
        Surface.refusal? (taken.foldl Surface.draw m.surface) refused = some error := by
  induction commands generalizing m with
  | nil => exact ⟨[], rfl, Nat.le_refl 0, by simp [drawAll]⟩
  | cons command rest ih =>
    rw [drawAll]
    cases hrefusal : Surface.refusal? m.surface command with
    | some error =>
      refine ⟨[command], rfl, Nat.succ_le_succ (Nat.zero_le _), ?_⟩
      rintro _ ⟨⟩
      exact ⟨[], command, rfl, hrefusal⟩
    | none =>
      obtain ⟨drawn, hdrawn, hlength, herror⟩ :=
        ih { m with surface := Surface.draw m.surface command }
      refine ⟨command :: drawn, hdrawn, Nat.succ_le_succ hlength, fun error h ↦ ?_⟩
      obtain ⟨taken, refused, rfl, hrefused⟩ := herror error h
      exact ⟨command :: taken, refused, rfl, hrefused⟩

section Draw

variable [Surface σ] (step : Machine σ → Outcome × Machine σ)
  (deeper : Option (Instruction → Machine σ → Outcome × Machine σ)) (i : Instruction)
  (commands : List Command)

/-- The commands drawn are those before the first that is refused, and that one. -/
theorem onlySurface_draw :
    OnlySurface commands.length (perform step deeper i m (.draw commands)).1 m
      (perform step deeper i m (.draw commands)).2 := by
  obtain ⟨drawn, hdrawn, hlength, herror⟩ := exists_drawAll m commands
  rw [perform, executedUnless_snd, hdrawn]
  refine ⟨rfl, rfl, fun _ ↦ rfl, drawn, rfl, hlength, ?_, ?_⟩
  · intro hfailed
    exact (executedUnless_ne_failed _ (Prod.ext hfailed rfl)).elim
  · intro error hfatal
    apply herror error
    rw [← executedUnless_error? i (drawAll commands m), hfatal]
    rfl

theorem keepsControl_draw : KeepsControl m (perform step deeper i m (.draw commands)).2 := by
  rw [perform, executedUnless_snd, drawAll_eq]
  exact ⟨rfl, rfl, rfl, rfl⟩

end Draw

end Machine

/-- The variable that a statement is about. -/
def Statement.target? : Statement → Option String
  | .set name _ | .del name | .update _ name _ | .setWhen _ name _ => some name
  | _ => none

/-- The variable that a statement is about is its first parameter. -/
theorem Statement.head?_operands {s : Statement} {name : String} (h : s.target? = some name) :
    s.operands.head? = some name := by
  cases s with
  | set | del | update | setWhen =>
    cases h
    rfl
  | _ => cases h

/-- Whether an operation has functions called or recorded. -/
def Operation.UsesFunctions : Operation → Prop
  | .call | .callWhen _ | .func => True
  | _ => False

theorem Variables.contains_insert_of_contains {vars : Variables} {name : String}
    (h : vars.contains name = true) (value : Number) (other : String) :
    (vars.insert name value).contains other = vars.contains other := by
  rw [contains, insert, Std.HashMap.contains_insert]
  by_cases heq : name = other
  · subst heq
    simpa using h.symm
  · simp [heq, contains]

theorem Variables.get?_erase (vars : Variables) (name other : String) :
    (vars.erase name).get? other = vars.get? other ∨ (vars.erase name).get? other = none := by
  rw [get?, erase, Std.HashMap.getElem?_erase]
  split
  · exact .inr rfl
  · exact .inl rfl

namespace Plans

variable [Surface σ] {m : Machine σ} {s : Statement} {a : Action} {first? : Option String}

/-- What is carried out makes no change outside the frame. -/
theorem frame (h : Plans m s a) (hfirst : ∀ name, s.target? = some name → first? = some name)
    (step : Machine σ → Outcome × Machine σ)
    (deeper : Option (Instruction → Machine σ → Outcome × Machine σ)) (i : Instruction) :
    s.operation.Frame first? (Machine.perform step deeper i m a).1 m
      (Machine.perform step deeper i m a).2 := by
  have hallowed := h.allowed
  cases h with
  | @set name value n =>
    rw [hfirst name rfl, Machine.perform_setVariable hallowed]
    exact Machine.onlyVariable_insert m name n
  | @del name =>
    rw [hfirst name rfl]
    exact ⟨Machine.onlyVariable_erase m name, Variables.get?_erase m.vars name⟩
  | print | dump => exact .log m _
  | func | call | callWhen | skipCall => trivial
  | ret => exact Machine.onlyRegister_setRegister m .ret _
  | operate => exact Machine.onlyRegister_setRegister m _ _
  | @update op name right current n found =>
    rw [hfirst name rfl, Machine.perform_setVariable hallowed]
    exact ⟨Machine.onlyVariable_insert m name _,
      Variables.contains_insert_of_contains (Variables.contains_of_get? found) _⟩
  | compare => exact Machine.onlyRegister_setRegister m .cmp _
  | @setWhen condition name value _ _ set =>
    cases set
    rw [hfirst name rfl, Machine.perform_setVariable hallowed]
    exact Machine.onlyVariable_insert m name _
  | skipSet => exact (OnlyMessages.refl m).onlyVariable _
  | path | fill | stroke | move | width | strokeColor | fillColor =>
    exact Machine.onlySurface_draw m step deeper i [_]
  | line => exact Machine.onlySurface_draw m step deeper i [_, _]

theorem keepsControl (h : Plans m s a) (hs : ¬ s.operation.UsesFunctions)
    (step : Machine σ → Outcome × Machine σ)
    (deeper : Option (Instruction → Machine σ → Outcome × Machine σ)) (i : Instruction) :
    KeepsControl m (Machine.perform step deeper i m a).2 := by
  have hallowed := h.allowed
  cases h with
  | func | call | callWhen | skipCall => exact absurd trivial hs
  | print | dump => exact (OnlyMessages.log m _).keepsControl
  | del | ret | operate | compare | skipSet => exact ⟨rfl, rfl, rfl, rfl⟩
  | set | update =>
    rw [Machine.perform_setVariable hallowed]
    exact ⟨rfl, rfl, rfl, rfl⟩
  | setWhen _ set =>
    cases set
    rw [Machine.perform_setVariable hallowed]
    exact ⟨rfl, rfl, rfl, rfl⟩
  | path | fill | stroke | move | line | width | strokeColor | fillColor =>
    exact Machine.keepsControl_draw m step deeper i _

end Plans

namespace Machine

variable [Surface σ] {i : Instruction} {operation : Operation}

/-- An instruction ends the program, is refused, or is carried out as the checks allow. -/
theorem interpret_cases (i : Instruction) (m : Machine σ) :
    i.isEof = true ∧ interpret i m = (.eof, m) ∨
    (interpret i m).1 = .failed ∧ OnlyMessages m (interpret i m).2 ∨
    ∃ s a step deeper, i.operation? = some s.operation ∧ i.params = s.operands ∧ Plans m s a ∧
      interpret i m = perform step deeper i m a := by
  obtain ⟨deeper, hinterpret⟩ := exists_interpret i m
  rw [hinterpret]
  cases heof : i.isEof with
  | true => exact .inl ⟨rfl, interpretWith_eof heof⟩
  | false =>
    right
    cases hs : Statement.ofInstruction i with
    | error rejection =>
      rw [interpretWith_rejected heof hs]
      exact .inl ⟨rfl, (OnlyMessages.refl m).say _ _⟩
    | ok s =>
      obtain ⟨hoperation, hstatement⟩ := Statement.ofInstruction_eq_ok_iff.1 hs
      cases hplan : m.plan s with
      | error fault =>
        rw [interpretWith_refused heof hs hplan]
        exact .inl ⟨rfl, .refuse m _ _⟩
      | ok a =>
        have hparams := (Statement.eq_of_statement? hstatement).2.symm
        exact .inr ⟨s, a, _, deeper, hoperation, hparams, plans_of_plan hplan,
          interpretWith_performed heof hs hplan⟩

theorem operation?_of_isEof (h : i.isEof = true) : i.operation? = none := by
  rw [Instruction.isEof, beq_iff_eq] at h
  rw [Instruction.operation?, h]
  decide

/-- An instruction keeps to the frame of its operation. -/
theorem frame_interpret (h : i.operation? = some operation) (m : Machine σ) :
    operation.Frame i.params.head? (interpret i m).1 m (interpret i m).2 := by
  rcases interpret_cases i m with ⟨heof, -⟩ | ⟨hfailed, hmessages⟩ |
    ⟨s, a, step, deeper, hoperation, hparams, hplans, hperform⟩
  · rw [operation?_of_isEof heof] at h
    cases h
  · rw [hfailed]
    exact hmessages.frame _ operation
  · obtain rfl : s.operation = operation := Option.some.inj (hoperation.symm.trans h)
    rw [hperform, hparams]
    exact hplans.frame (fun name ↦ Statement.head?_operands) step deeper i

/-- An unknown operation gives a warning and does nothing. -/
theorem onlyMessages_of_unknown (h : i.operation? = none) (m : Machine σ) :
    OnlyMessages m (interpret i m).2 := by
  rcases interpret_cases i m with ⟨-, hinterpret⟩ | ⟨-, hmessages⟩ |
    ⟨s, a, step, deeper, hoperation, -⟩
  · rw [hinterpret]
    exact .refl m
  · exact hmessages
  · rw [hoperation] at h
    cases h

/-- Only calls and `func` reach functions, text, depth or random numbers. -/
theorem keepsControl_interpret
    (h : ∀ operation, i.operation? = some operation → ¬ operation.UsesFunctions)
    (m : Machine σ) : KeepsControl m (interpret i m).2 := by
  rcases interpret_cases i m with ⟨-, hinterpret⟩ | ⟨-, hmessages⟩ |
    ⟨s, a, step, deeper, hoperation, -, hplans, hperform⟩
  · rw [hinterpret]
    exact ⟨rfl, rfl, rfl, rfl⟩
  · exact hmessages.keepsControl
  · rw [hperform]
    exact hplans.keepsControl (h _ hoperation) step deeper i

end Machine

theorem Operator.register_name (op : Operator) : op.register.name = "$" ++ op.name := by
  cases op <;> rfl

namespace Operation

theorem ofName?_operate (op : Operator) : ofName? op.name = some (.operate op) := by
  cases op <;> decide

theorem ofName?_update (op : Operator) : ofName? (op.name ++ "s") = some (.update op) := by
  cases op <;> decide

theorem ofName?_setWhen (condition : Condition) :
    ofName? ("s" ++ condition.suffix) = some (.setWhen condition) := by
  cases condition <;> decide

/-- Functions are used under the names of calls and of `func` only. -/
theorem name_of_usesFunctions {name : String} {operation : Operation}
    (h : ofName? name = some operation) (hoperation : operation.UsesFunctions) :
    name = "call" ∨ name = "func" ∨ ∃ condition : Condition, name = "c" ++ condition.suffix := by
  have hmem := ofName?_eq_some_iff.1 h
  cases operation with
  | call =>
    have hcall : HasOnlyName call "call" := by decide
    exact .inl ((hcall.mem_table_iff name).1 hmem)
  | func =>
    have hfunc : HasOnlyName func "func" := by decide
    exact .inr (.inl ((hfunc.mem_table_iff name).1 hmem))
  | callWhen condition =>
    exact .inr (.inr ⟨condition, ((hasOnlyName_callWhen condition).mem_table_iff name).1 hmem⟩)
  | _ => exact absurd hoperation id

/-- A name leads nowhere just when it is not listed. -/
theorem ofName?_eq_none_iff {name : String} : ofName? name = none ↔ name ∉ names := by
  rw [ofName?, List.lookup_eq_none_iff, names, List.mem_mergeSort, List.mem_map]
  constructor
  · rintro h ⟨entry, hmem, rfl⟩
    simpa using h entry hmem
  · intro h entry hmem
    rw [bne_iff_ne]
    rintro rfl
    exact h ⟨entry, hmem, rfl⟩

end Operation

namespace Machine

variable [Surface σ]

/-- What an instruction leaves alone, by the name of its operation and whatever its parameters and
its outcome are. -/
theorem operations_keep_to_frame (i : Instruction) (m : Machine σ) :
    let name := Text.lower i.operation
    let outcome := (interpret i m).1
    let m' := (interpret i m).2
    (name ≠ "call" → name ≠ "func" → (∀ condition : Condition, name ≠ "c" ++ condition.suffix) →
      KeepsControl m m') ∧
    (∀ op : Operator, name = op.name → OnlyRegister ("$" ++ op.name) m m') ∧
    (name = "ret" → OnlyRegister "$ret" m m') ∧
    (name = "cmp" → OnlyRegister "$cmp" m m') ∧
    (name = "set" ∨ (∃ condition : Condition, name = "s" ++ condition.suffix) →
      OnlyVariable i.params.head? m m') ∧
    (∀ op : Operator, name = op.name ++ "s" → OnlyVariable i.params.head? m m' ∧
      ∀ key, m'.vars.contains key = m.vars.contains key) ∧
    (name = "del" → OnlyVariable i.params.head? m m' ∧
      ∀ key, m'.vars.get? key = m.vars.get? key ∨ m'.vars.get? key = none) ∧
    (name ∈ ["path", "fill", "strk", "movp", "lwid", "rgba"] → OnlySurface 1 outcome m m') ∧
    (name = "line" → OnlySurface 2 outcome m m') ∧
    (name ∈ ["print", "dump", "dmp"] ∨ name ∉ Operation.names → OnlyMessages m m') := by
  intro name outcome m'
  have hframe (operation : Operation) {key : String} (hname : name = key)
      (h : Operation.ofName? key = some operation) :
      operation.Frame i.params.head? outcome m m' := by
    rw [← hname] at h
    exact frame_interpret h m
  refine ⟨?_, fun op hname ↦ ?_, fun hname ↦ hframe .ret hname (by decide),
    fun hname ↦ hframe .compare hname (by decide), ?_,
    fun op hname ↦ hframe (.update op) hname (Operation.ofName?_update op),
    fun hname ↦ hframe .del hname (by decide), ?_, fun hname ↦ hframe .line hname (by decide), ?_⟩
  · intro hcall hfunc hcallWhen
    apply keepsControl_interpret
    intro operation hoperation huses
    rcases Operation.name_of_usesFunctions hoperation huses with h | h | ⟨condition, h⟩
    · exact hcall h
    · exact hfunc h
    · exact hcallWhen condition h
  · rw [← Operator.register_name op]
    exact hframe (.operate op) hname (Operation.ofName?_operate op)
  · rintro (hname | ⟨condition, hname⟩)
    · exact hframe .set hname (by decide)
    · exact hframe (.setWhen condition) hname (Operation.ofName?_setWhen condition)
  · intro hname
    simp only [List.mem_cons, List.not_mem_nil, or_false] at hname
    rcases hname with h | h | h | h | h | h
    · exact hframe .path h (by decide)
    · exact hframe .fill h (by decide)
    · exact hframe .stroke h (by decide)
    · exact hframe .move h (by decide)
    · exact hframe .width h (by decide)
    · exact hframe .color h (by decide)
  · rintro (hname | hname)
    · simp only [List.mem_cons, List.not_mem_nil, or_false] at hname
      rcases hname with h | h | h
      · exact hframe .print h (by decide)
      · exact hframe .dump h (by decide)
      · exact hframe .dump h (by decide)
    · exact onlyMessages_of_unknown (Operation.ofName?_eq_none_iff.2 hname) m

/-- On a full canvas a `fill` ends in an error, with everything as it was. -/
theorem fill_onResizedCanvas_keeps_to_frame :
    let m := onResizedCanvas
    let m' := (interpret ⟨"fill", []⟩ m).2
    (interpret ⟨"fill", []⟩ m).1 = .fatal Canvas.full ∧ KeepsControl m m' ∧
      m'.registers = m.registers ∧ m'.surface = m.surface := by
  intro m m'
  have hname : Text.lower "fill" = "fill" := by decide +kernel
  have hfull : m.surface.commands.size = Canvas.capacity := by
    simp only [m, onResizedCanvas, updateSize, fullCanvas, Canvas.resize, Array.size_replicate]
  have hfatal := interpret_fill_of_full hfull
  obtain ⟨hcontrol, -, -, -, -, -, -, hdrawing, -⟩ := operations_keep_to_frame ⟨"fill", []⟩ m
  rw [hname] at hcontrol hdrawing
  have hnoCall : ∀ condition : Condition, "fill" ≠ "c" ++ condition.suffix := by
    intro condition
    cases condition <;> decide
  have hsurface := hdrawing (by decide)
  obtain ⟨commands, hdrawn, hlength, -, herror⟩ := hsurface.drawn
  obtain ⟨taken, refused, rfl, hrefused⟩ := herror _ hfatal
  obtain rfl : taken = [] := by simpa using hlength
  rw [List.nil_append, List.foldl_cons, List.foldl_nil] at hdrawn
  rw [List.foldl_nil] at hrefused
  have hkept : Surface.draw m.surface refused = m.surface := by
    -- The full canvas is too long to be computed.
    clear_value m
    exact Canvas.draw_of_refusal?_eq_some hrefused refused
  exact ⟨hfatal, hcontrol (by decide) (by decide) hnoCall, hsurface.registers, hdrawn.trans hkept⟩

end Machine

end PenMachine
