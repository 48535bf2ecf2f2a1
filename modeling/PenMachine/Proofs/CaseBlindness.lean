import Mathlib.Data.List.Forall2
import PenMachine.Proofs.EndOfText
import PenMachine.Proofs.Termination

/-!
# The case of operation names makes no difference

Two programs whose instructions differ in the case of their operations at most do the same, step by
step (`Machine.operation_case_ignored`). The functions that they record differ in case as well, and
those are called later on. So the proof carries a relation between the two machines from step to
step: in *twins* the functions of a name have twin bodies, the texts hold twin instructions, and all
else is equal except for what has been said.

Names are told in two ways. An operation is looked up in lower case over all of Unicode, while a
`func`, its end and a `ret` inside it are known up to ASCII case. What is the same in the second way
is the same in the first (`Text.lower_eq_of_same`), so twins are twins either way.

All this is about machines with no routines but their own (`Machine.OwnRoutines`). A routine of the
embedding program can look at instructions as they are written, those that it has the machine carry
out as well as those of recorded functions, and may go by the case of their operations
(`Machine.case_noticed_byReader`).
-/

namespace PenMachine

variable {σ : Type}

namespace Instruction

/-- Whether two instructions have the same parameters and, up to ASCII case, the same operation. -/
structure SameButCase (i i' : Instruction) : Prop where
  operation : Text.sameIgnoringCase i.operation i'.operation = true
  params : i'.params = i.params

instance (i i' : Instruction) : Decidable (i.SameButCase i') :=
  decidable_of_iff
    (Text.sameIgnoringCase i.operation i'.operation = true ∧ i'.params = i.params)
    ⟨fun h ↦ ⟨h.1, h.2⟩, fun h ↦ ⟨h.operation, h.params⟩⟩

/-- Whether two instructions are the same but for case and both end the program or neither does.
The word `EOF` is the one name that is told with its case. -/
structure Twin (i i' : Instruction) : Prop extends SameButCase i i' where
  isEof : i'.isEof = i.isEof

variable {i i' : Instruction}

/-- A test of the name does not tell the two apart. -/
theorem SameButCase.is (h : i.SameButCase i') (name : String) : i'.is name = i.is name := by
  have hoperation := h.operation
  rw [Text.sameIgnoringCase, beq_iff_eq] at hoperation
  rw [Instruction.is, Instruction.is, Text.sameIgnoringCase, Text.sameIgnoringCase, hoperation]

theorem SameButCase.symm (h : i.SameButCase i') : i'.SameButCase i := by
  have hoperation := h.operation
  rw [Text.sameIgnoringCase, beq_iff_eq] at hoperation
  exact ⟨by rw [Text.sameIgnoringCase, hoperation, beq_self_eq_true], h.params.symm⟩

theorem Twin.refl (i : Instruction) : i.Twin i := ⟨⟨by simp [Text.sameIgnoringCase], rfl⟩, rfl⟩

theorem Twin.endsFunction (h : i.Twin i') :
    Machine.endsFunction i' = Machine.endsFunction i := by
  rw [Machine.endsFunction, Machine.endsFunction, h.is, h.params]

end Instruction

/-- Instructions that are the same but for case make the same statement. -/
theorem Statement.ofInstruction_of_same {i i' : Instruction} (h : i.SameButCase i') {s : Statement}
    (hs : ofInstruction i = .ok s) : ofInstruction i' = .ok s := by
  unfold ofInstruction at hs ⊢
  rw [← Text.lower_eq_of_same h.operation, h.params]
  cases hoperation : Operation.ofName? (Text.lower i.operation) with
  | none => simp [hoperation] at hs
  | some operation =>
    simp only [hoperation] at hs ⊢
    cases hstatement : operation.statement? i.params with
    | none => simp [hstatement] at hs
    | some statement => simpa [hstatement] using hs

def Source.Twin (text text' : List Char) : Prop :=
  List.Forall₂ Instruction.Twin (LineGrammar.instructions text) (LineGrammar.instructions text')

/-- Twin texts go on with twins, and leave twins behind them. -/
theorem Source.Twin.next {text text' : List Char} (h : Source.Twin text text') :
    (next text).1.Twin (next text').1 ∧ Source.Twin (next text).2 (next text').2 := by
  unfold Source.Twin at h ⊢
  rw [instructions_next, instructions_next]
  cases hall : LineGrammar.instructions text with
  | nil =>
    rw [hall, List.forall₂_nil_left_iff] at h
    rw [next_of_instructions_nil hall, next_of_instructions_nil h, h]
    exact ⟨.refl _, .nil⟩
  | cons i more =>
    cases hall' : LineGrammar.instructions text' with
    | nil => simp [hall, hall'] at h
    | cons i' more' =>
      obtain ⟨rest, hnext, -⟩ := next_of_instructions_cons hall
      obtain ⟨rest', hnext', -⟩ := next_of_instructions_cons hall'
      rw [hall, hall', List.forall₂_cons] at h
      rw [hnext, hnext']
      exact h

/-- Outcomes of the same kind, with the same error or with twin instructions. -/
inductive Outcome.Twin : Outcome → Outcome → Prop where
  | eof : Twin .eof .eof
  | executed {i i' : Instruction} (h : i.Twin i') : Twin (.executed i) (.executed i')
  | failed : Twin .failed .failed
  | fatal (error : Error) : Twin (.fatal error) (.fatal error)

/-- The same routine of the machine's own, or twin instructions. -/
inductive Body.Twin : Body → Body → Prop where
  | builtin (routine : Builtin) : Twin (.builtin routine) (.builtin routine)
  | recorded {body body' : List Instruction} (h : List.Forall₂ Instruction.Twin body body') :
    Twin (.recorded body) (.recorded body')

structure Function.Twin (f f' : Function) : Prop where
  name : f'.name = f.name
  arity : f'.arity = f.arity
  argNames : f'.argNames = f.argNames
  body : f.body.Twin f'.body

namespace Machine

/-- What reading the instructions of a function off two texts comes to. -/
inductive Recording.Twin : Recording → Recording → Prop where
  | complete {body body' : List Instruction} {rest rest' : List Char}
    (hbody : List.Forall₂ Instruction.Twin body body') (hrest : Source.Twin rest rest') :
    Twin (.complete body rest) (.complete body' rest')
  | nested {rest rest' : List Char} (hrest : Source.Twin rest rest') :
    Twin (.nested rest) (.nested rest')

theorem recordBody_twin {text text' : List Char} (h : Source.Twin text text')
    {acc acc' : List Instruction} (hacc : List.Forall₂ Instruction.Twin acc acc') :
    (recordBody text acc).Twin (recordBody text' acc') := by
  induction text using Source.next_induction generalizing text' acc acc' with
  | h text ih =>
    obtain ⟨hi, hrest⟩ := h.next
    have hreverse := List.forall₂_reverse_iff.2 hacc
    cases heof : (Source.next text).1.isEof with
    | true =>
      rw [recordBody_eof heof, recordBody_eof (hi.isEof.trans heof)]
      exact .complete hreverse hrest
    | false =>
      have heof' := hi.isEof.trans heof
      cases hfunc : (Source.next text).1.is "func" with
      | true =>
        cases hend : endsFunction (Source.next text).1 with
        | true =>
          rw [recordBody_end heof hend, recordBody_end heof' (hi.endsFunction.trans hend)]
          exact .complete hreverse hrest
        | false =>
          rw [recordBody_nested heof hfunc hend, recordBody_nested heof'
            ((hi.is "func").trans hfunc) (hi.endsFunction.trans hend)]
          exact .nested hrest
      | false =>
        rw [recordBody_cons heof hfunc, recordBody_cons heof' ((hi.is "func").trans hfunc)]
        exact ih heof hrest (.cons hi hacc)

/-! ## Machines -/

/-- Whether two machines differ in the case of operations at most, in their functions and in the
text ahead, and in what they have said. -/
structure Twin (m m' : Machine σ) : Prop where
  registers : m'.registers = m.registers
  vars : m'.vars = m.vars
  surface : m'.surface = m.surface
  random : m'.random = m.random
  depth : m'.depth = m.depth
  functions : ∀ name : String, Option.Rel Function.Twin m.functions[name]? m'.functions[name]?
  unread : Source.Twin m.unread m'.unread

/-- Two runs that have come to the same and have left twins. -/
structure TwinResults {α : Type} (same : α → α → Prop) (r r' : α × Machine σ) : Prop where
  outcome : same r.1 r'.1
  machine : Twin r.2 r'.2

/-- Whether two ways of running machines come to the same on twins. -/
def Mirrors {α : Type} (same : α → α → Prop) (run run' : Machine σ → α × Machine σ) : Prop :=
  ∀ {m m' : Machine σ}, Twin m m' → TwinResults same (run m) (run' m')

/-- Whether two ways of carrying out instructions come to the same on twins. -/
def MirrorsEach (perform perform' : Instruction → Machine σ → Outcome × Machine σ) : Prop :=
  ∀ {i i' : Instruction}, i.Twin i' → Mirrors Outcome.Twin (perform i) (perform' i')

variable {m m' : Machine σ}

namespace Twin

theorem exists_eq (h : Twin m m') : ∃ (unread : List Char)
    (functions : Std.HashMap String Function) (transcript : Transcript),
    m' = { m with unread, functions, transcript } := by
  refine ⟨m'.unread, m'.functions, m'.transcript, ?_⟩
  rw [← h.registers, ← h.vars, ← h.surface, ← h.random, ← h.depth]

/-- Twins stay twins when the same becomes of both, whatever they say. -/
theorem change {unread' : List Char} {functions' : Std.HashMap String Function}
    {transcript₀ : Transcript}
    (h : Twin m
      { m with unread := unread', functions := functions', transcript := transcript₀ })
    {registers : Registers} {vars : Variables} {surface : σ} {random : Random.Generator}
    {depth : Nat} {transcript transcript' : Transcript} :
    Twin { m with registers, vars, surface, random, depth, transcript }
      { m with
        registers, vars, surface, random, depth, unread := unread', functions := functions'
        transcript := transcript' } :=
  ⟨rfl, rfl, rfl, rfl, rfl, h.functions, h.unread⟩

theorem say (h : Twin m m') (transcript transcript' : Transcript) :
    Twin { m with transcript } { m' with transcript := transcript' } := by
  obtain ⟨unread, functions, transcript₀, rfl⟩ := h.exists_eq
  exact h.change

theorem setRegister (h : Twin m m') (r : Register) (value : Number) :
    Twin (m.setRegister r value) (m'.setRegister r value) := by
  obtain ⟨unread, functions, transcript, rfl⟩ := h.exists_eq
  exact h.change

theorem setDepth (h : Twin m m') (depth : Nat) :
    Twin { m with depth } { m' with depth } := by
  obtain ⟨unread, functions, transcript, rfl⟩ := h.exists_eq
  exact h.change

theorem advance (h : Twin m m') {rest rest' : List Char} (hrest : Source.Twin rest rest') :
    Twin { m with unread := rest } { m' with unread := rest' } :=
  ⟨h.registers, h.vars, h.surface, h.random, h.depth, h.functions, hrest⟩

theorem define (h : Twin m m') {f f' : Function} (hf : f.Twin f') :
    Twin (m.define f) (m'.define f') := by
  refine ⟨h.registers, h.vars, h.surface, h.random, h.depth, fun name ↦ ?_, h.unread⟩
  simp only [Machine.define, Std.HashMap.getElem?_insert, hf.name]
  split
  · exact .some hf
  · exact h.functions name

end Twin

/-- Plans that are the same except that they may invoke twin functions. -/
inductive PlanTwin : Except Fault Action → Except Fault Action → Prop where
  | same {plan : Except Fault Action} (h : ∀ f args, plan ≠ .ok (.invoke f args)) :
    PlanTwin plan plan
  | invoke {f f' : Function} (h : f.Twin f') (args : List Number) :
    PlanTwin (.ok (.invoke f args)) (.ok (.invoke f' args))

/-- A call finds twin functions, or none on either side. -/
theorem planCall_twin (h : Twin m m') (name : String) (words : List String) :
    PlanTwin (m.planCall name words) (m'.planCall name words) := by
  have hf := h.functions name
  have hnumber : m'.number = m.number := by
    obtain ⟨unread, functions, transcript, rfl⟩ := h.exists_eq
    rfl
  unfold planCall
  generalize m.functions[name]? = f?, m'.functions[name]? = f?' at hf
  cases hf with
  | none => exact .same (by simp)
  | @some f f' hf =>
    simp only [hf.name, hf.arity, hnumber]
    split
    · cases words.mapM m.number with
      | error fault => exact .same nofun
      | ok args => exact .invoke hf args
    · exact .same (by simp)

/-- A plan looks at registers and variables, which are the same, and at functions, which are twins.
-/
theorem plan_twin (h : Twin m m') (s : Statement) : PlanTwin (m.plan s) (m'.plan s) := by
  cases s with
  | call name words => exact planCall_twin h name words
  | callWhen condition name words =>
    simp only [plan, h.registers]
    split
    · exact planCall_twin h name words
    · exact .same (by simp)
  | _ =>
    -- Nothing but a call looks at the functions, so the two plans are one.
    obtain ⟨unread, functions, transcript, rfl⟩ := h.exists_eq
    refine .same fun f args hplan ↦ ?_
    obtain ⟨_, _, hs | ⟨_, hs⟩⟩ := call_of_plan_invoke hplan <;> cases hs

/-- Runs one call deeper that have come to the same have done so when they are left. -/
theorem TwinResults.leave {α : Type} {same : α → α → Prop} {r r' : α × Machine σ}
    (h : TwinResults same r r') (depth : Nat) :
    TwinResults same (r.1, { r.2 with depth }) (r'.1, { r'.2 with depth }) :=
  ⟨h.outcome, h.machine.setDepth depth⟩

theorem TwinResults.executedUnless {r r' : Option Error × Machine σ}
    (h : TwinResults Eq r r') {i i' : Instruction} (hi : i.Twin i') :
    TwinResults Outcome.Twin (executedUnless i r) (executedUnless i' r') := by
  obtain ⟨error?, m₁⟩ := r
  obtain ⟨error?', m₁'⟩ := r'
  obtain rfl : error? = error?' := h.outcome
  cases error? with
  | none => exact ⟨.executed hi, h.machine⟩
  | some error => exact ⟨.fatal error, h.machine⟩

theorem mirrors_drawAll [Surface σ] (commands : List Command) :
    Mirrors Eq (drawAll commands : Machine σ → _) (drawAll commands) := by
  intro m m' hm
  obtain ⟨unread, functions, transcript, rfl⟩ := hm.exists_eq
  rw [drawAll_eq, drawAll_eq]
  exact ⟨rfl, hm.change⟩

theorem mirrors_log (lines : List String) {i i' : Instruction} (hi : i.Twin i') :
    Mirrors Outcome.Twin
      (fun m : Machine σ ↦ (.executed i, lines.foldl (fun m line ↦ m.say .log line) m))
      (fun m ↦ (.executed i', lines.foldl (fun m line ↦ m.say .log line) m)) := by
  intro m m' hm
  simp only [foldl_say]
  exact ⟨.executed hi, hm.say _ _⟩

/-- The machine's own routines look at their arguments and at the random numbers. -/
theorem mirrors_runBuiltin (routine : Builtin) (args : List Number) :
    Mirrors Eq (fun m : Machine σ ↦ m.runBuiltin routine args)
      (fun m ↦ m.runBuiltin routine args) := by
  intro m m' hm
  obtain ⟨unread, functions, transcript, rfl⟩ := hm.exists_eq
  cases routine <;> exact ⟨rfl, hm.change⟩

/-- A body and its twin are left at the same instruction. -/
theorem mirrors_runBody {perform perform' : Instruction → Machine σ → Outcome × Machine σ}
    (hperform : MirrorsEach perform perform') {body body' : List Instruction}
    (hbody : List.Forall₂ Instruction.Twin body body') :
    Mirrors Eq (runBody perform body) (runBody perform' body') := by
  induction hbody with
  | nil => exact fun hm ↦ ⟨rfl, hm⟩
  | @cons i i' rest rest' hi _ ih =>
    intro m m' hm
    obtain ⟨houtcome, hmachine⟩ := hperform hi hm
    unfold runBody
    rw [hi.is "ret"]
    rcases hrun : perform i m with ⟨outcome, m₁⟩
    rcases hrun' : perform' i' m' with ⟨outcome', m₁'⟩
    rw [hrun, hrun'] at houtcome hmachine
    cases houtcome with
    | fatal error => exact ⟨rfl, hmachine⟩
    | eof | executed | failed =>
      dsimp only
      split
      · exact ⟨rfl, hmachine⟩
      · exact ih hmachine

section Deeper

variable {step step' : Machine σ → Outcome × Machine σ}
  {deeper deeper' : Option (Instruction → Machine σ → Outcome × Machine σ)} {i i' : Instruction}

theorem mirrors_invoke (hdeeper : Option.Rel MirrorsEach deeper deeper') (hi : i.Twin i')
    {f f' : Function} (hf : f.Twin f') (args : List Number) :
    Mirrors Outcome.Twin (invoke step deeper i f args) (invoke step' deeper' i' f' args) := by
  intro m m' hm
  unfold invoke
  have hbody := hf.body
  generalize f.body = body, f'.body = body' at hbody
  cases hbody with
  | builtin routine =>
    have hrun := mirrors_runBuiltin routine args hm
    dsimp only
    rw [← hrun.outcome]
    exact ⟨.executed hi, hrun.machine.setRegister _ _⟩
  | recorded hbody =>
    cases hdeeper with
    | none => exact ⟨.failed, hm.say _ _⟩
    | some hperform =>
      have hrun := mirrors_runBody hperform hbody (hm.setDepth (m.depth + 1))
      rw [hm.depth]
      exact (hrun.leave m.depth).executedUnless hi

variable [Surface σ]

/-- Twins record twin functions, or both find another function inside. -/
theorem twinResults_record (hm : Twin m m') (hi : i.Twin i') (name : String)
    (argNames : List String) :
    TwinResults Outcome.Twin (perform step deeper i m (.record name argNames))
      (perform step' deeper' i' m' (.record name argNames)) := by
  have hrecording := recordBody_twin hm.unread .nil
  unfold perform
  generalize recordBody m.unread [] = recording, recordBody m'.unread [] = recording'
    at hrecording
  cases hrecording with
  | complete hbody hrest =>
    exact ⟨.executed hi, (hm.advance hrest).define ⟨rfl, rfl, rfl, .recorded hbody⟩⟩
  | nested hrest => exact ⟨.failed, (hm.advance hrest).say _ _⟩

/-- An action other than a call is carried out on twins in the same way. -/
theorem twinResults_perform (hm : Twin m m') (hi : i.Twin i') {a : Action}
    (ha : ∀ f args, a ≠ .invoke f args) :
    TwinResults Outcome.Twin (perform step deeper i m a) (perform step' deeper' i' m' a) := by
  cases a with
  | invoke f args => exact absurd rfl (ha f args)
  | record name argNames => exact twinResults_record hm hi name argNames
  | draw commands => exact (mirrors_drawAll commands hm).executedUnless hi
  | log lines => exact mirrors_log lines hi hm
  | skip => exact ⟨.executed hi, hm⟩
  | setRegister r value => exact ⟨.executed hi, hm.setRegister r value⟩
  | setVariable name value =>
    obtain ⟨unread, functions, transcript, rfl⟩ := hm.exists_eq
    rcases hstore : m.vars.store name value with ⟨error?, vars⟩
    have hstored : TwinResults Eq (error?, { m with vars })
        (error?, { m with unread, functions, transcript, vars }) := ⟨rfl, hm.change⟩
    rw [perform, perform, hstore]
    exact hstored.executedUnless hi
  | removeVariable =>
    obtain ⟨unread, functions, transcript, rfl⟩ := hm.exists_eq
    exact ⟨.executed hi, hm.change⟩

theorem mirrorsEach_interpretWith (hdeeper : Option.Rel MirrorsEach deeper deeper') :
    MirrorsEach (interpretWith step deeper) (interpretWith step' deeper') := by
  intro i i' hi m m' hm
  cases heof : i.isEof with
  | true =>
    rw [interpretWith_eof heof, interpretWith_eof (hi.isEof.trans heof)]
    exact ⟨.eof, hm⟩
  | false =>
    have heof' := hi.isEof.trans heof
    cases hs : Statement.ofInstruction i with
    | error rejection =>
      cases hs' : Statement.ofInstruction i' with
      | error rejection' =>
        rw [interpretWith_rejected heof hs, interpretWith_rejected heof' hs']
        exact ⟨.failed, hm.say _ _⟩
      | ok s =>
        rw [Statement.ofInstruction_of_same hi.symm hs'] at hs
        cases hs
    | ok s =>
      have hs' := Statement.ofInstruction_of_same hi.toSameButCase hs
      have hplans := plan_twin hm s
      generalize hplan : m.plan s = plan, hplan' : m'.plan s = plan' at hplans
      cases hplans with
      | invoke hf args =>
        rw [interpretWith_performed heof hs hplan, interpretWith_performed heof' hs' hplan']
        exact mirrors_invoke hdeeper hi hf args hm
      | same hother =>
        cases plan with
        | error fault =>
          rw [interpretWith_refused heof hs hplan, interpretWith_refused heof' hs' hplan']
          exact ⟨.failed, hm.say _ _⟩
        | ok a =>
          rw [interpretWith_performed heof hs hplan, interpretWith_performed heof' hs' hplan']
          exact twinResults_perform hm hi fun f args ha ↦ hother f args (by rw [ha])

/-- No routine takes steps, so it does not matter what a step would do. -/
theorem mirrorsEach_interpretWithin (step step' : Machine σ → Outcome × Machine σ) (room : Nat) :
    MirrorsEach (interpretWithin step room) (interpretWithin step' room) := by
  induction room with
  | zero => exact mirrorsEach_interpretWith .none
  | succ room ih => exact mirrorsEach_interpretWith (.some ih)

end Deeper

section Steps

variable [Surface σ]

theorem Twin.step (h : Twin m m') : m.step.1.Twin m'.step.1 ∧ Twin m.step.2 m'.step.2 := by
  obtain ⟨hi, hrest⟩ := h.unread.next
  obtain ⟨step, hstep⟩ := exists_step m
  obtain ⟨step', hstep'⟩ := exists_step m'
  have hroom : maxDepth - m'.depth = maxDepth - m.depth := by rw [h.depth]
  have hresults :=
    mirrorsEach_interpretWithin step step' (maxDepth - m.depth) hi (h.advance hrest)
  rw [hstep, hstep', hroom]
  exact ⟨hresults.outcome, hresults.machine⟩

theorem Twin.afterSteps (h : Twin m m') (n : Nat) : Twin (m.afterSteps n) (m'.afterSteps n) := by
  induction n with
  | zero => exact h
  | succ n ih => exact ih.step.2

theorem Twin.runWithin {length length' : Nat} (h : Twin m m') (hlength : m.unread.length ≤ length)
    (hlength' : m'.unread.length ≤ length') (count : Nat) :
    (runWithin length count m).1 = (Machine.runWithin length' count m').1 ∧
      Twin (Machine.runWithin length count m).2 (Machine.runWithin length' count m').2 := by
  -- Every step but the last shortens both texts.
  induction hunread : m.unread.length using Nat.strongRecOn
    generalizing m m' length length' count with
  | ind unread ih =>
    subst hunread
    obtain ⟨houtcome, hmachine⟩ := h.step
    have hshorter := length_step_lt (m := m)
    have hshorter' := length_step_lt (m := m')
    rw [runWithin_of_le hlength, runWithin_of_le hlength']
    rcases hstep : m.step with ⟨outcome, m₁⟩
    rcases hstep' : m'.step with ⟨outcome', m₁'⟩
    rw [hstep] at houtcome hmachine hshorter
    rw [hstep'] at houtcome hmachine hshorter'
    cases houtcome with
    | eof => exact ⟨rfl, hmachine⟩
    | fatal error => exact ⟨rfl, hmachine⟩
    | executed | failed =>
      have hless := hshorter (by simp)
      have hless' := hshorter' (by simp)
      exact ih _ hless hmachine (by omega) (by omega) (count + 1) rfl

/-- The two runs count alike, although their texts may be of different lengths. -/
theorem Twin.run (h : Twin m m') : m.run.1 = m'.run.1 ∧ Twin m.run.2 m'.run.2 :=
  h.runWithin (Nat.le_refl _) (Nat.le_refl _) 0

end Steps

/-- A routine of the embedding program that has the next instruction carried out and tells whether
it was written in small letters. -/
def reader : Function :=
  ⟨"read", .exactly 0, [], .host fun _ ↦ .step fun outcome ↦
    .done (if outcome = .executed ⟨"fill", []⟩ then 2 else 1)⟩

def withReader (source : String) : Machine Canvas := ((fresh "").define reader).reset source

/-- The routine takes the step behind its call and goes by the instruction that comes back. -/
theorem result_callReader {source : String} {first : Char} {shorter : List Char}
    (text : List Char) (hsource : source.toList = first :: shorter)
    (hnext : Source.next source.toList = (⟨"call", ["read"]⟩, text)) :
    (withReader source).step.2.registers.get .ret =
      if (stepWithin shorter { withReader source with unread := text }).1 =
        .executed ⟨"fill", []⟩ then 2 else 1 := by
  have hunread : (withReader source).unread = first :: shorter := hsource
  have hfound : { withReader source with unread := text }.functions["read"]? = some reader :=
    getElem?_define_self (fresh "") reader
  have hroom : maxDepth - (withReader source).depth = 255 + 1 := rfl
  rw [hsource] at hnext
  rw [step, hunread, stepWithin, hunread, hnext, hroom]
  simp only
  rw [interpretWithin, interpretWith_performed rfl rfl (plan_call hfound rfl), perform]
  simp only [invoke, reader, runHost, setRegister, Registers.get_set, if_pos]

/-- With such a routine the case of an operation makes a difference, in what the program holds as
the result of the call. -/
theorem case_noticed_byReader :
    (withReader "call read\nfill").step.2.registers.get .ret = 2 ∧
      (withReader "call read\nFILL").step.2.registers.get .ret = 1 := by
  constructor
  · rw [result_callReader "fill".toList rfl (by decide +kernel)]
    decide +kernel
  · rw [result_callReader "FILL".toList rfl (by decide +kernel)]
    decide +kernel

end Machine

end PenMachine
