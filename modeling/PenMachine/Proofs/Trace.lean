import PenMachine.Proofs.Plan

/-!
# Traces

What happens while an instruction is carried out, event by event: every message, every change of the
machine, every command that the surface is asked to draw with its answer, and every instruction of
every body that is called on the way. `Machine.events` lists the events of an instruction, and
`Machine.accounts_interpret` says that the list is a full account. Each event was allowed when it
happened, one after the other they lead from the machine before to the machine after, the depth is
back where it was, and the surface refuses nothing unless that is the end: behind a refusal calls
are left and nothing else happens.

A routine of the embedding program that takes steps of the program is opaque. Its trace shows that
it was run but not what it did, so the account is for machines without such routines.
-/

namespace PenMachine

variable {σ : Type}

/-- One thing that happens while instructions are carried out. -/
inductive Event where
  /-- An instruction is taken up. -/
  | begin (i : Instruction)
  | say (level : Level) (text : String)
  | setRegister (r : Register) (value : Number)
  | setVariable (name : String) (value : Number)
  | removeVariable (name : String)
  /-- A function is recorded, and the text goes on after it. -/
  | record (name : String) (argNames : List String) (body : List Instruction) (rest : List Char)
  /-- The text goes on at a later place. -/
  | advance (rest : List Char)
  /-- A routine that is no recorded function is run. -/
  | native (name : String)
  | drawRandom
  /-- The surface is asked to draw a command and does. -/
  | draw (command : Command)
  /-- The surface is asked to draw a command and refuses. -/
  | refusal (command : Command) (error : Error)
  /-- A call is refused because it would go too deep. -/
  | overflow (name : String)
  /-- The body of a recorded function starts, one call deeper. -/
  | enter (name : String)
  /-- The body of a recorded function is left. -/
  | leave
  deriving DecidableEq

namespace Event

def apply [Surface σ] : Event → Machine σ → Machine σ
  | .begin _, m | .native _, m | .overflow _, m => m
  | .say level text, m => m.say level text
  | .setRegister r value, m => m.setRegister r value
  | .setVariable name value, m => { m with vars := m.vars.insert name value }
  | .removeVariable name, m => { m with vars := m.vars.erase name }
  | .record name argNames body rest, m =>
    { m with unread := rest }.define (.recorded name argNames body)
  | .advance rest, m => { m with unread := rest }
  | .drawRandom, m => m.drawRandom.2
  | .draw command, m | .refusal command _, m =>
    { m with surface := Surface.draw m.surface command }
  | .enter _, m => { m with depth := m.depth + 1 }
  | .leave, m => { m with depth := m.depth - 1 }

/-- Recording is the only event that adds a function. -/
theorem function_cases [Surface σ] {e : Event} {m : Machine σ} {key : String} {f : Function}
    (h : (e.apply m).functions[key]? = some f) :
    m.functions[key]? = some f ∨ ∃ (argNames : List String) (body : List Instruction)
      (rest : List Char), e = .record key argNames body rest ∧ f = .recorded key argNames body := by
  cases e with
  | record name argNames body rest =>
    simp only [apply, Machine.define, Std.HashMap.getElem?_insert] at h
    split at h
    · rename_i hname
      obtain rfl : name = key := by simpa [Function.recorded] using hname
      cases h
      exact .inr ⟨argNames, body, rest, rfl, rfl⟩
    · exact .inl h
  | _ => exact .inl h

/-- When an event can happen. -/
def Allowed [Surface σ] : Event → Machine σ → Prop
  | .setRegister r value, m => (Action.setRegister r value).Allowed m
  | .setVariable name value, m => (Action.setVariable name value).Allowed m
  | .removeVariable name, m => (Action.removeVariable name).Allowed m
  | .record _ _ body rest, m => Machine.recordBody m.unread [] = .complete body rest
  | .draw command, m => Surface.refusal? m.surface command = none
  | .refusal command error, m => Surface.refusal? m.surface command = some error
  | .overflow _, m => Machine.maxDepth ≤ m.depth
  | .enter _, m => m.depth < Machine.maxDepth
  | _, _ => True

end Event

/-- Machines with the same registers, variables, functions, surface and random numbers. They may
differ in the text they are to read, in depth, and in what they have said. -/
structure Agree (m m' : Machine σ) : Prop where
  registers : m'.registers = m.registers
  vars : m'.vars = m.vars
  functions : m'.functions = m.functions
  surface : m'.surface = m.surface
  random : m'.random = m.random

/-- Events that happen one after another, each of them allowed when it does. -/
inductive Trace [Surface σ] : Machine σ → List Event → Machine σ → Prop where
  | nil (m : Machine σ) : Trace m [] m
  | cons {m m' : Machine σ} {e : Event} {events : List Event} (allowed : e.Allowed m)
    (rest : Trace (e.apply m) events m') : Trace m (e :: events) m'

namespace Trace

variable [Surface σ] {m m₁ m₂ m' : Machine σ} {before after events : List Event}

theorem single {e : Event} (h : e.Allowed m) : Trace m [e] (e.apply m) := .cons h (.nil _)

theorem append (h₁ : Trace m before m₁) (h₂ : Trace m₁ after m₂) :
    Trace m (before ++ after) m₂ := by
  induction h₁ with
  | nil => exact h₂
  | cons allowed _ ih => exact .cons allowed (ih h₂)

theorem split (h : Trace m (before ++ after) m₂) : ∃ m₁, Trace m before m₁ ∧ Trace m₁ after m₂ := by
  induction before generalizing m with
  | nil => exact ⟨m, .nil m, h⟩
  | cons e before ih =>
    cases h with
    | cons allowed rest =>
      obtain ⟨m₁, h₁, h₂⟩ := ih rest
      exact ⟨m₁, .cons allowed h₁, h₂⟩

/-- What every allowed event keeps, a trace keeps. -/
theorem invariant {I : Machine σ → Prop}
    (keeps : ∀ {m : Machine σ} {e : Event}, e.Allowed m → I m → I (e.apply m))
    (h : Trace m events m') (hm : I m) : I m' := by
  induction h with
  | nil => exact hm
  | cons allowed _ ih => exact ih (keeps allowed hm)

end Trace

/-- Whether the surface refuses nothing. -/
def Quiet (events : List Event) : Prop :=
  ∀ (command : Command) (error : Error), Event.refusal command error ∉ events

/-- Without an error nothing was refused. With one, the surface refused for the first time with just
this error, and after that calls were left and nothing else happened. -/
def Stops (events : List Event) : Option Error → Prop
  | none => Quiet events
  | some error => ∃ (before : List Event) (command : Command) (calls : Nat),
      Quiet before ∧ events = before ++ .refusal command error :: List.replicate calls .leave

theorem Quiet.append {before after : List Event} (h₁ : Quiet before) (h₂ : Quiet after) :
    Quiet (before ++ after) := by
  intro command error hmem
  rcases List.mem_append.1 hmem with hmem | hmem
  · exact h₁ command error hmem
  · exact h₂ command error hmem

/-- Events that refuse nothing may come first. -/
theorem Stops.append {before after : List Event} {error? : Option Error} (h₁ : Quiet before)
    (h₂ : Stops after error?) : Stops (before ++ after) error? := by
  cases error? with
  | none => exact h₁.append h₂
  | some error =>
    obtain ⟨middle, command, calls, hquiet, rfl⟩ := h₂
    exact ⟨before ++ middle, command, calls, h₁.append hquiet, by simp⟩

theorem Stops.cons {e : Event} {after : List Event} {error? : Option Error} (h₁ : Quiet [e])
    (h₂ : Stops after error?) : Stops (e :: after) error? :=
  Stops.append h₁ h₂

/-- Leaving a call comes after everything else, be it an error or not. -/
theorem Stops.leave {events : List Event} {error? : Option Error} (h : Stops events error?) :
    Stops (events ++ [.leave]) error? := by
  cases error? with
  | none => exact Quiet.append h (by simp [Quiet])
  | some error =>
    obtain ⟨before, command, calls, hquiet, rfl⟩ := h
    refine ⟨before, command, calls + 1, hquiet, ?_⟩
    rw [List.replicate_succ']
    simp

/-- The error that ended a run, if the outcome is one. -/
@[simp]
def Outcome.error? : Outcome → Option Error
  | .fatal error => some error
  | _ => none

/-- A full account of how one machine became another. -/
structure Accounts [Surface σ] (m : Machine σ) (events : List Event) (error? : Option Error)
    (m' : Machine σ) : Prop where
  trace : Trace m events m'
  depth : m'.depth = m.depth
  stops : Stops events error?

namespace Accounts

variable [Surface σ] {m m₁ m' : Machine σ} {before after : List Event} {error? : Option Error}

theorem nil (m : Machine σ) : Accounts m [] none m := ⟨.nil m, rfl, by simp [Stops, Quiet]⟩

theorem append (h₁ : Accounts m before none m₁) (h₂ : Accounts m₁ after error? m') :
    Accounts m (before ++ after) error? m' :=
  ⟨h₁.trace.append h₂.trace, h₂.depth.trans h₁.depth, Stops.append h₁.stops h₂.stops⟩

theorem single {e : Event} (allowed : e.Allowed m) (hquiet : Quiet [e])
    (hdepth : (e.apply m).depth = m.depth) : Accounts m [e] none (e.apply m) :=
  ⟨.single allowed, hdepth, hquiet⟩

theorem cons {e : Event} (allowed : e.Allowed m) (hquiet : Quiet [e])
    (hdepth : (e.apply m).depth = m.depth) (h : Accounts (e.apply m) after error? m') :
    Accounts m (e :: after) error? m' :=
  append (single allowed hquiet hdepth) h

end Accounts

namespace Machine

/-- Logging changes what has been said and nothing else. -/
theorem foldl_say (lines : List String) (m : Machine σ) :
    lines.foldl (fun m line ↦ m.say .log line) m =
      { m with transcript := lines.foldl (·.write ⟨.log, ·⟩ .newLine) m.transcript } := by
  induction lines generalizing m with
  | nil => rfl
  | cons line rest ih => exact ih (m.say .log line)

/-- What becomes of a surface when commands are drawn up to the first that it refuses. -/
def paint [Surface σ] : List Command → σ → Option Error × σ
  | [], surface => (none, surface)
  | command :: rest, surface =>
    match Surface.refusal? surface command with
    | some error => (some error, Surface.draw surface command)
    | none => paint rest (Surface.draw surface command)

/-- Drawing looks at the surface and changes nothing else. -/
theorem drawAll_eq [Surface σ] (commands : List Command) (m : Machine σ) :
    drawAll commands m =
      ((paint commands m.surface).1, { m with surface := (paint commands m.surface).2 }) := by
  induction commands generalizing m with
  | nil => rfl
  | cons command rest ih =>
    rw [drawAll, paint]
    cases Surface.refusal? m.surface command with
    | some error => rfl
    | none => exact ih { m with surface := Surface.draw m.surface command }

/-! ## The events of an instruction -/

/-- How instructions are run one call deeper, and what happens then. -/
structure Runner (σ : Type) where
  run : Instruction → Machine σ → Outcome × Machine σ
  events : Instruction → Machine σ → List Event

/-- The reports about an instruction that is refused. -/
def refusalEvents (operation : String) (fault : Fault) : List Event :=
  [.say fault.level fault.text,
    .say .debug ("Assertion failed in '" ++ operation ++ "': " ++ fault.text)]

def drawEvents [Surface σ] : List Command → σ → List Event
  | [], _ => []
  | command :: rest, surface =>
    match Surface.refusal? surface command with
    | some error => [.refusal command error]
    | none => .draw command :: drawEvents rest (Surface.draw surface command)

/-- Drawing only asks the surface. -/
theorem draws_of_mem_drawEvents [Surface σ] {commands : List Command} {surface : σ} {e : Event}
    (h : e ∈ drawEvents commands surface) :
    (∃ command, e = .draw command) ∨ ∃ command error, e = .refusal command error := by
  induction commands generalizing surface with
  | nil => cases h
  | cons command rest ih =>
    rw [drawEvents] at h
    cases hrefusal : Surface.refusal? surface command with
    | some error =>
      rw [hrefusal, List.mem_singleton] at h
      exact .inr ⟨command, error, h⟩
    | none =>
      rw [hrefusal, List.mem_cons] at h
      rcases h with hdraw | hrest
      · exact .inl ⟨command, hdraw⟩
      · exact ih hrest

def builtinEvents : Builtin → List Number → List Event
  | .probe, args =>
    [.say .info (".func is called with " ++ toString args.length ++ " arguments!")]
  | .print, args => [.say .log (String.join (args.map fun n ↦ n.toText ++ " "))]
  | .rand, _ => [.drawRandom]
  | _, _ => []

def bodyEvents (runner : Runner σ) : List Instruction → Machine σ → List Event
  | [], _ => []
  | i :: rest, m =>
    runner.events i m ++
      match runner.run i m with
      | (.fatal _, _) => []
      | (_, m) => if i.is "ret" then [] else bodyEvents runner rest m

def invokeEvents (deeper : Option (Runner σ)) (i : Instruction) (f : Function)
    (args : List Number) (m : Machine σ) : List Event :=
  match f.body with
  | .builtin routine =>
    .native f.name :: builtinEvents routine args ++
      [.setRegister .ret (m.runBuiltin routine args).1]
  | .host routine =>
    .native f.name ::
      match routine args with
      | .done value => [.setRegister .ret value]
      | .step _ => []
  | .recorded body =>
    match deeper with
    | none => .overflow f.name :: refusalEvents i.operation (.callDepth f.name)
    | some runner =>
      .enter f.name :: bodyEvents runner body { m with depth := m.depth + 1 } ++ [.leave]

def performEvents [Surface σ] (deeper : Option (Runner σ)) (i : Instruction) (m : Machine σ) :
    Action → List Event
  | .skip => []
  | .setRegister r value => [.setRegister r value]
  | .setVariable name value => [.setVariable name value]
  | .removeVariable name => [.removeVariable name]
  | .log lines => lines.map (.say .log)
  | .record name argNames =>
    match recordBody m.unread [] with
    | .complete body rest => [.record name argNames body rest]
    | .nested rest => .advance rest :: refusalEvents i.operation .nestedFunction
  | .invoke f args => invokeEvents deeper i f args m
  | .draw commands => drawEvents commands m.surface

def eventsWith [Surface σ] (deeper : Option (Runner σ)) (i : Instruction) (m : Machine σ) :
    List Event :=
  .begin i ::
    if i.isEof then []
    else match Statement.ofInstruction i with
      | .error rejection => [.say .warn rejection.text]
      | .ok statement =>
        match m.plan statement with
        | .error fault => refusalEvents i.operation fault
        | .ok action => performEvents deeper i m action

def eventsWithin [Surface σ] (step : Machine σ → Outcome × Machine σ) :
    Nat → Instruction → Machine σ → List Event
  | 0 => eventsWith none
  | room + 1 => eventsWith (some ⟨interpretWithin step room, eventsWithin step room⟩)

/-- What happens while an instruction is carried out. -/
def events [Surface σ] (i : Instruction) (m : Machine σ) : List Event :=
  eventsWithin (stepWithin m.unread) (maxDepth - m.depth) i m

section Ways

variable [Surface σ] {step : Machine σ → Outcome × Machine σ} {deeper : Option (Runner σ)}
  {perform? : Option (Instruction → Machine σ → Outcome × Machine σ)} {i : Instruction}
  {m : Machine σ} {s : Statement}

theorem interpretWith_eof (h : i.isEof = true) : interpretWith step perform? i m = (.eof, m) := by
  simp [interpretWith, h]

theorem eventsWith_eof (h : i.isEof = true) : eventsWith deeper i m = [.begin i] := by
  simp [eventsWith, h]

/-- An instruction that makes no statement is answered with a warning. -/
theorem interpretWith_rejected (h : i.isEof = false) {r : Rejection}
    (hs : Statement.ofInstruction i = .error r) :
    interpretWith step perform? i m = (.failed, m.say .warn r.text) := by
  simp [interpretWith, h, hs]

theorem eventsWith_rejected (h : i.isEof = false) {r : Rejection}
    (hs : Statement.ofInstruction i = .error r) :
    eventsWith deeper i m = [.begin i, .say .warn r.text] := by
  simp [eventsWith, h, hs]

/-- A statement that fails a check is reported and does nothing. -/
theorem interpretWith_refused (h : i.isEof = false) (hs : Statement.ofInstruction i = .ok s)
    {fault : Fault} (hplan : m.plan s = .error fault) :
    interpretWith step perform? i m = (.failed, m.refuse i.operation fault) := by
  simp [interpretWith, h, hs, hplan]

theorem eventsWith_refused (h : i.isEof = false) (hs : Statement.ofInstruction i = .ok s)
    {fault : Fault} (hplan : m.plan s = .error fault) :
    eventsWith deeper i m = .begin i :: refusalEvents i.operation fault := by
  simp [eventsWith, h, hs, hplan]

/-- Otherwise the plan is carried out. -/
theorem interpretWith_performed (h : i.isEof = false) (hs : Statement.ofInstruction i = .ok s)
    {a : Action} (hplan : m.plan s = .ok a) :
    interpretWith step perform? i m = perform step perform? i m a := by
  simp [interpretWith, h, hs, hplan]

theorem eventsWith_performed (h : i.isEof = false) (hs : Statement.ofInstruction i = .ok s)
    {a : Action} (hplan : m.plan s = .ok a) :
    eventsWith deeper i m = .begin i :: performEvents deeper i m a := by
  simp [eventsWith, h, hs, hplan]

/-- However much room there is for calls, an instruction is taken up in one of these ways. -/
theorem exists_interpretWith (step : Machine σ → Outcome × Machine σ) (room : Nat) :
    ∃ perform?, interpretWithin step room = interpretWith step perform? := by
  cases room with
  | zero => exact ⟨none, rfl⟩
  | succ room => exact ⟨some (interpretWithin step room), rfl⟩

theorem exists_interpret (i : Instruction) (m : Machine σ) :
    ∃ perform?, interpret i m = interpretWith (stepWithin m.unread) perform? i m := by
  obtain ⟨perform?, hwith⟩ := exists_interpretWith
    (stepWithin m.unread : Machine σ → Outcome × Machine σ) (maxDepth - m.depth)
  exact ⟨perform?, by rw [interpret, hwith]⟩

end Ways

end Machine

/-- Whether a body runs without taking steps of the program. Only routines of the embedding program
can take any; such a routine then answers at once. -/
def Body.Stepless : Body → Prop
  | .host routine => ∀ args, ∃ value, routine args = .done value
  | _ => True

namespace Machine

def Stepless (m : Machine σ) : Prop :=
  ∀ (name : String) (f : Function), m.functions[name]? = some f → f.body.Stepless

theorem Stepless.apply [Surface σ] {m : Machine σ} {e : Event} (h : m.Stepless) :
    (e.apply m).Stepless := by
  intro key f hf
  rcases Event.function_cases hf with hold | ⟨argNames, body, rest, rfl, rfl⟩
  · exact h key f hold
  · trivial

theorem Stepless.trace [Surface σ] {m m' : Machine σ} {events : List Event} (h : m.Stepless)
    (ht : Trace m events m') : m'.Stepless :=
  ht.invariant (fun _ hm ↦ hm.apply) h

/-! ## The account of an instruction -/

@[simp]
theorem executedUnless_error? (i : Instruction) (r : Option Error × Machine σ) :
    (executedUnless i r).1.error? = r.1 := by
  obtain ⟨_ | error, m⟩ := r <;> rfl

@[simp]
theorem executedUnless_snd (i : Instruction) (r : Option Error × Machine σ) :
    (executedUnless i r).2 = r.2 := by
  obtain ⟨_ | error, m⟩ := r <;> rfl

section Accounts

variable [Surface σ] {m : Machine σ} {i : Instruction}

theorem accounts_refuse (operation : String) (fault : Fault) :
    Accounts m (refusalEvents operation fault) none (m.refuse operation fault) := by
  refine .cons trivial (by simp [Quiet]) rfl ?_
  exact .single trivial (by simp [Quiet]) rfl

theorem accounts_log (lines : List String) :
    Accounts m (lines.map (.say .log)) none (lines.foldl (fun m line ↦ m.say .log line) m) := by
  induction lines generalizing m with
  | nil => exact .nil m
  | cons line rest ih => exact .cons trivial (by simp [Quiet]) rfl ih

/-- A refusal ends the drawing, and the surface is as the refused command has left it. -/
theorem accounts_drawAll (commands : List Command) :
    Accounts m (drawEvents commands m.surface) (drawAll commands m).1 (drawAll commands m).2 := by
  induction commands generalizing m with
  | nil => exact .nil m
  | cons command rest ih =>
    cases hrefusal : Surface.refusal? m.surface command with
    | some error =>
      simp only [drawEvents, drawAll, hrefusal]
      have hrefused : (Event.refusal command error).Allowed m := hrefusal
      exact ⟨.single hrefused, rfl, [], command, 0, by simp [Quiet], rfl⟩
    | none =>
      simp only [drawEvents, drawAll, hrefusal]
      exact .cons hrefusal (by simp [Quiet]) rfl ih

theorem accounts_builtin (routine : Builtin) (args : List Number) :
    Accounts m (builtinEvents routine args) none (m.runBuiltin routine args).2 := by
  cases routine with
  | probe | print | rand => exact .single trivial (by simp [Quiet]) rfl
  | log | sin | cos | tan | sqrt => exact .nil m

/-- A body is accounted for when each of its instructions is, at the depth of the call. -/
theorem accounts_runBody {runner : Runner σ} {depth : Nat}
    (hrunner : ∀ (j : Instruction) (m : Machine σ), m.depth = depth → m.Stepless →
      Accounts m (runner.events j m) (runner.run j m).1.error? (runner.run j m).2)
    (body : List Instruction) (hdepth : m.depth = depth) (hm : m.Stepless) :
    Accounts m (bodyEvents runner body m) (runBody runner.run body m).1
      (runBody runner.run body m).2 := by
  induction body generalizing m with
  | nil => exact .nil m
  | cons j rest ih =>
    have hj := hrunner j m hdepth hm
    unfold bodyEvents runBody
    rcases hrun : runner.run j m with ⟨outcome, m₁⟩
    rw [hrun] at hj
    cases outcome with
    | fatal error => simpa using hj
    | eof | executed | failed =>
      by_cases hret : j.is "ret"
      · simpa [hret] using hj
      · simp only [hret]
        exact hj.append (ih (hj.depth.trans hdepth) (hm.trace hj.trace))

/-- A runner fits a machine when it can account for everything one call deeper. Only a machine at
the depth limit has none. -/
def Fits (m : Machine σ) : Option (Runner σ) → Prop
  | none => maxDepth ≤ m.depth
  | some runner =>
    m.depth < maxDepth ∧
      ∀ (j : Instruction) (m' : Machine σ), m'.depth = m.depth + 1 → m'.Stepless →
        Accounts m' (runner.events j m') (runner.run j m').1.error? (runner.run j m').2

/-- A call accounts for its body with an event on entering and one on leaving. -/
theorem accounts_invoke {step : Machine σ → Outcome × Machine σ} {deeper : Option (Runner σ)}
    (hdeeper : Fits m deeper) (hm : m.Stepless) {f : Function} {args : List Number}
    (hf : (Action.invoke f args).Allowed m) :
    Accounts m (invokeEvents deeper i f args m)
      (invoke step (deeper.map Runner.run) i f args m).1.error?
      (invoke step (deeper.map Runner.run) i f args m).2 := by
  obtain ⟨name, hname, -⟩ := hf
  unfold invokeEvents invoke
  cases hbody : f.body with
  | host routine =>
    have hstepless := hm name f hname
    rw [hbody] at hstepless
    obtain ⟨value, hvalue⟩ := hstepless args
    simp only [hvalue, runHost]
    exact .cons trivial (by simp [Quiet]) rfl (.single (.inl rfl) (by simp [Quiet]) rfl)
  | builtin routine =>
    refine .cons trivial (by simp [Quiet]) rfl ((accounts_builtin routine args).append ?_)
    exact .single (.inl rfl) (by simp [Quiet]) rfl
  | recorded body =>
    cases deeper with
    | none => exact .cons hdeeper (by simp [Quiet]) rfl (accounts_refuse _ _)
    | some runner =>
      obtain ⟨hlt, hrunner⟩ := hdeeper
      have hrun := accounts_runBody hrunner body (m := { m with depth := m.depth + 1 }) rfl hm
      simp only [Option.map_some, executedUnless_error?, executedUnless_snd]
      refine ⟨?_, rfl, ?_⟩
      · refine .cons hlt (hrun.trace.append ?_)
        -- The body is back at the depth of the call, so leaving it restores the caller's.
        have hleave :
            Trace (runBody runner.run body { m with depth := m.depth + 1 }).2 [.leave] _ :=
          .single trivial
        rwa [Event.apply, hrun.depth] at hleave
      · exact Stops.cons (by simp [Quiet]) hrun.stops.leave

theorem accounts_perform {step : Machine σ → Outcome × Machine σ} {deeper : Option (Runner σ)}
    (hdeeper : Fits m deeper) (hm : m.Stepless) {a : Action} (ha : a.Allowed m) :
    Accounts m (performEvents deeper i m a)
      (perform step (deeper.map Runner.run) i m a).1.error?
      (perform step (deeper.map Runner.run) i m a).2 := by
  cases a with
  | skip => exact .nil m
  | setRegister | removeVariable => exact .single ha (by simp [Quiet]) rfl
  | setVariable =>
    rw [perform_setVariable ha]
    exact .single ha (by simp [Quiet]) rfl
  | log lines => exact accounts_log lines
  | record name argNames =>
    unfold performEvents perform
    cases hbody : recordBody m.unread [] with
    | complete body rest => exact .single hbody (by simp [Quiet]) rfl
    | nested rest => exact .cons trivial (by simp [Quiet]) rfl (accounts_refuse _ _)
  | invoke f args => exact accounts_invoke hdeeper hm ha
  | draw commands =>
    simp only [perform, executedUnless_error?, executedUnless_snd]
    exact accounts_drawAll commands

/-- The account of an instruction, if there is one for everything one call deeper. -/
theorem accounts_interpretWith {step : Machine σ → Outcome × Machine σ}
    (deeper : Option (Runner σ)) (hdeeper : Fits m deeper) (hm : m.Stepless) :
    Accounts m (eventsWith deeper i m)
      (interpretWith step (deeper.map Runner.run) i m).1.error?
      (interpretWith step (deeper.map Runner.run) i m).2 := by
  have hbegin : Quiet [.begin i] := by simp [Quiet]
  cases heof : i.isEof with
  | true =>
    rw [interpretWith_eof heof, eventsWith_eof heof]
    exact .single trivial hbegin rfl
  | false =>
    cases hs : Statement.ofInstruction i with
    | error rejection =>
      rw [interpretWith_rejected heof hs, eventsWith_rejected heof hs]
      exact .cons trivial hbegin rfl (.single trivial (by simp [Quiet]) rfl)
    | ok s =>
      cases hplan : m.plan s with
      | error fault =>
        rw [interpretWith_refused heof hs hplan, eventsWith_refused heof hs hplan]
        exact .cons trivial hbegin rfl (accounts_refuse _ _)
      | ok a =>
        rw [interpretWith_performed heof hs hplan, eventsWith_performed heof hs hplan]
        exact .cons trivial hbegin rfl (accounts_perform hdeeper hm (plans_of_plan hplan).allowed)

/-- The induction is on the room that is left for calls, which the depth determines. -/
theorem accounts_interpretWithin (step : Machine σ → Outcome × Machine σ) (room : Nat)
    (hroom : room = maxDepth - m.depth) (hm : m.Stepless) :
    Accounts m (eventsWithin step room i m) (interpretWithin step room i m).1.error?
      (interpretWithin step room i m).2 := by
  induction room generalizing i m with
  | zero =>
    have hfits : Fits m none := by
      unfold Fits
      omega
    exact accounts_interpretWith none hfits hm
  | succ room ih =>
    have hfits : Fits m (some ⟨interpretWithin step room, eventsWithin step room⟩) := by
      refine ⟨by omega, fun j m' hdepth hm' ↦ ?_⟩
      exact ih (by omega) hm'
    exact accounts_interpretWith _ hfits hm

/-- The events of an instruction are a full account of it. -/
theorem accounts_interpret (hm : m.Stepless) :
    Accounts m (events i m) (interpret i m).1.error? (interpret i m).2 :=
  accounts_interpretWithin _ _ rfl hm

end Accounts

end Machine

end PenMachine
