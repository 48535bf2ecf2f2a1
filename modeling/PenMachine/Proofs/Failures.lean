import PenMachine.Proofs.Calls
import PenMachine.Proofs.Unfolding

/-!
# Failures are reported once

Whatever a session runs, each instruction that fails complains once, and nobody else complains. An
instruction that is no statement gets a warning. One that is refused gets an error, and right behind
it a message for debugging that quotes the operation as it was written and repeats the error. The
instructions that are carried out, in the program and in the bodies that it calls, are read off the
events, each with the machine as it was then (`attempts`). `Reported` pairs those that fail with the
complaints one by one; every rule of evaluation keeps it (`Machine.Unfolds.reported`), and so does
every request (`Machine.failures_reported_once`).
-/

namespace PenMachine

variable {σ : Type}

/-- Whether a checked computation has no faults below the level of errors. -/
def OnlyErrors {α : Type} (x : Except Fault α) : Prop :=
  ∀ fault, x = .error fault → fault.level = .error

namespace OnlyErrors

variable {α β : Type}

theorem ok (a : α) : OnlyErrors (.ok a) := by
  intro fault h
  cases h

theorem error {fault : Fault} (h : fault.level = .error) :
    OnlyErrors (.error fault : Except Fault α) := by
  rintro _ ⟨⟩
  exact h

theorem bind {x : Except Fault α} {f : α → Except Fault β} (hx : OnlyErrors x)
    (hf : ∀ a, OnlyErrors (f a)) : OnlyErrors (x >>= f) := by
  cases x with
  | error fault => exact error (hx fault rfl)
  | ok a => exact hf a

theorem map {x : Except Fault α} (hx : OnlyErrors x) (f : α → β) : OnlyErrors (f <$> x) := by
  cases x with
  | error fault => exact error (hx fault rfl)
  | ok a => exact ok (f a)

theorem mapM {f : α → Except Fault β} (hf : ∀ a, OnlyErrors (f a)) (l : List α) :
    OnlyErrors (l.mapM f) := by
  induction l with
  | nil => exact ok []
  | cons a rest ih =>
    rw [List.mapM_cons]
    exact (hf a).bind fun b ↦ ih.bind fun bs ↦ ok (b :: bs)

end OnlyErrors

namespace Machine

variable {m : Machine σ}

/-- The level that is given is that of errors, and a number out of range is an error anyway. -/
theorem onlyErrors_demand (word : String) (message : Option String) (low high : Number) :
    OnlyErrors (m.demand word message low high .error) := by
  simp only [demand]
  split
  · exact .ok _
  · split
    · exact .error rfl
    · exact .error rfl

theorem onlyErrors_number (word : String) : OnlyErrors (m.number word) :=
  onlyErrors_demand word none _ _

theorem onlyErrors_planSet (name value : String) : OnlyErrors (m.planSet name value) := by
  unfold planSet
  split
  · exact .error rfl
  · split
    · exact .error rfl
    · refine (onlyErrors_demand _ _ _ _).bind fun n ↦ ?_
      split
      · exact .ok _
      · exact .error rfl

theorem onlyErrors_planRecord (name : String) (argNames : List String) :
    OnlyErrors (planRecord name argNames) := by
  unfold planRecord
  split
  · exact .error rfl
  · split
    · exact .error rfl
    · exact .ok _

theorem onlyErrors_planCall (name : String) (args : List String) :
    OnlyErrors (m.planCall name args) := by
  unfold planCall
  split
  · exact .error rfl
  · split
    · exact (OnlyErrors.mapM onlyErrors_number args).map _
    · exact .error rfl

theorem onlyErrors_coordinate (x y : String) : OnlyErrors (m.coordinate x y) :=
  (onlyErrors_number x).bind fun _ ↦ (onlyErrors_number y).bind fun _ ↦ .ok _

/-- Every channel and the opacity are demanded at the level of errors. -/
theorem onlyErrors_colorOf (parts : List String) : OnlyErrors (m.colorOf parts) := by
  have hchannel : ∀ word, OnlyErrors (m.channel word) :=
    fun word ↦ (onlyErrors_demand word none 0 255).map _
  unfold colorOf
  split
  · exact .ok _
  · apply (hchannel _).bind
    intro red
    apply (hchannel _).bind
    intro green
    apply (hchannel _).bind
    intro blue
    exact (onlyErrors_demand _ none 0 1).bind fun alpha ↦ .ok _
  · exact .error rfl

theorem onlyErrors_planColor (target : String) (parts : List String) :
    OnlyErrors (m.planColor target parts) := by
  unfold planColor
  split
  · exact (onlyErrors_colorOf parts).map _
  · split
    · exact (onlyErrors_colorOf parts).map _
    · exact .error rfl

/-- Whatever refuses a statement refuses it at the level of errors. -/
theorem onlyErrors_plan (s : Statement) : OnlyErrors (m.plan s) := by
  cases s with
  | set name value => exact onlyErrors_planSet name value
  | del name =>
    simp only [plan, planRemove]
    split
    · exact .ok _
    · exact .error rfl
  | func name argNames => exact onlyErrors_planRecord name argNames
  | call name args => exact onlyErrors_planCall name args
  | ret value => exact (onlyErrors_number value).map _
  | operate op left right =>
    exact (onlyErrors_number left).bind fun _ ↦ (onlyErrors_number right).bind fun _ ↦ .ok _
  | update op name right =>
    simp only [plan, planUpdate]
    split
    · exact .error rfl
    · exact (onlyErrors_number right).map _
  | callWhen condition name args =>
    simp only [plan]
    split
    · exact onlyErrors_planCall name args
    · exact .ok _
  | setWhen condition name value =>
    simp only [plan]
    split
    · exact onlyErrors_planSet name value
    · exact .ok _
  | path verb =>
    simp only [plan, planPath]
    split
    · exact .ok _
    · exact .ok _
    · exact .ok _
    · exact .error rfl
  | move x y => exact (onlyErrors_coordinate x y).map _
  | line x y => exact (onlyErrors_coordinate x y).map _
  | width value => exact (onlyErrors_demand value _ 0 _).map _
  | color target parts => exact onlyErrors_planColor target parts
  | print | dump | compare | fill | stroke => exact .ok _

end Machine

/-- An instruction that is taken up, with the machine as it is then. -/
structure Attempt (σ : Type) where
  instruction : Instruction
  machine : Machine σ

/-- The instructions that are taken up while events happen, from a machine on. -/
def attempts [Surface σ] : List Event → Machine σ → List (Attempt σ)
  | [], _ => []
  | .begin i :: rest, m => ⟨i, m⟩ :: attempts rest m
  | e :: rest, m => attempts rest (e.apply m)

def replay [Surface σ] (events : List Event) (m : Machine σ) : Machine σ :=
  events.foldl (fun m e ↦ e.apply m) m

def messagesOf (events : List Event) : List Message := events.filterMap Event.message?

/-- Whether a message is a warning or an error. -/
def Message.complains (message : Message) : Bool := message.level.reaches .warn

namespace Attempt

variable [Surface σ]

/-- Whether carrying out the instruction fails. What came of it when it was taken up is the same
(`Machine.Unfolds.interpret_eq`). -/
def fails (attempt : Attempt σ) : Bool :=
  (attempt.machine.interpret attempt.instruction).1 = .failed

/-- The message for debugging that goes with an error. -/
def assertion (attempt : Attempt σ) (text : String) : Message :=
  ⟨.debug, "Assertion failed in '" ++ attempt.instruction.operation ++ "': " ++ text⟩

/-- Whether carrying out the instruction says just this. -/
def Says (attempt : Attempt σ) (messages : List Message) : Prop :=
  Said attempt.machine messages (attempt.machine.interpret attempt.instruction).2

end Attempt

/-- Whether the complaints among messages are those of the given attempts, one for each and in their
order. An instruction that is no statement, since its operation is unknown or takes another number
of parameters, says a warning and nothing else. A statement says an error and, with nothing in
between, the message for debugging. -/
inductive Reports [Surface σ] : List (Attempt σ) → List Message → Prop where
  | nil : Reports [] []
  | quiet {failures : List (Attempt σ)} {messages : List Message} {message : Message}
    (calm : message.complains = false) (rest : Reports failures messages) :
    Reports failures (message :: messages)
  | warning {attempt : Attempt σ} {failures : List (Attempt σ)} {messages : List Message}
    {rejection : Rejection}
    (statement : Statement.ofInstruction attempt.instruction = .error rejection)
    (said : attempt.Says [⟨.warn, rejection.text⟩]) (rest : Reports failures messages) :
    Reports (attempt :: failures) (⟨.warn, rejection.text⟩ :: messages)
  | error {attempt : Attempt σ} {failures : List (Attempt σ)} {messages : List Message}
    {s : Statement} {text : String}
    (statement : Statement.ofInstruction attempt.instruction = .ok s)
    (said : attempt.Says [⟨.error, text⟩, attempt.assertion text])
    (rest : Reports failures messages) :
    Reports (attempt :: failures) (⟨.error, text⟩ :: attempt.assertion text :: messages)

namespace Reports

variable [Surface σ] {failures failures' : List (Attempt σ)} {messages messages' : List Message}

theorem append (h : Reports failures messages) (h' : Reports failures' messages') :
    Reports (failures ++ failures') (messages ++ messages') := by
  induction h with
  | nil => exact h'
  | quiet calm _ ih => exact .quiet calm ih
  | warning statement said _ ih => exact .warning statement said ih
  | error statement said _ ih => exact .error statement said ih

theorem of_calm (h : ∀ message ∈ messages, message.complains = false) :
    Reports ([] : List (Attempt σ)) messages := by
  induction messages with
  | nil => exact .nil
  | cons message rest ih =>
    obtain ⟨hcalm, hrest⟩ := List.forall_mem_cons.1 h
    exact .quiet hcalm (ih hrest)

/-- There are as many complaints as failures. -/
theorem countP_complains (h : Reports failures messages) :
    messages.countP Message.complains = failures.length := by
  induction h with
  | nil => rfl
  | quiet calm _ ih => rw [List.countP_cons_of_neg (by simp [calm]), ih]
  | warning _ _ _ ih => rw [List.countP_cons_of_pos rfl, ih, List.length_cons]
  | @error attempt _ _ _ text _ _ _ ih =>
    have hcalm : (attempt.assertion text).complains = false := rfl
    rw [List.countP_cons_of_pos rfl, List.countP_cons_of_neg (by simp [hcalm]), ih,
      List.length_cons]

/-- The message right behind an error is the one for debugging. -/
theorem next_of_error (h : Reports failures messages) {k : Nat} {text : String}
    (hk : messages[k]? = some ⟨.error, text⟩) :
    ∃ attempt ∈ failures, messages[k + 1]? = some (attempt.assertion text) := by
  induction h generalizing k with
  | nil => cases hk
  | quiet calm _ ih =>
    cases k with
    | zero =>
      cases hk
      cases calm
    | succ k => exact ih hk
  | warning _ _ _ ih =>
    cases k with
    | zero => cases hk
    | succ k =>
      obtain ⟨attempt, hmem, hnext⟩ := ih hk
      exact ⟨attempt, List.mem_cons_of_mem _ hmem, hnext⟩
  | @error attempt _ _ _ _ _ _ _ ih =>
    match k with
    | 0 =>
      cases hk
      exact ⟨attempt, by simp, rfl⟩
    | 1 => cases hk
    | k + 2 =>
      obtain ⟨attempt, hmem, hnext⟩ := ih hk
      exact ⟨attempt, List.mem_cons_of_mem _ hmem, hnext⟩

end Reports

def failures [Surface σ] (events : List Event) (m : Machine σ) : List (Attempt σ) :=
  (attempts events m).filter Attempt.fails

/-- Whether an event takes up no instruction and is no complaint. -/
def Event.Silent : Event → Prop
  | .begin _ => False
  | .say level _ => level.reaches .warn = false
  | _ => True

section Events

variable [Surface σ] {m m' : Machine σ} {i : Instruction} {events before after : List Event}

theorem Trace.replay_eq (h : Trace m events m') : replay events m = m' := by
  induction h with
  | nil => rfl
  | cons _ _ ih => exact ih

/-- Attempts of later events are made on the machine that the earlier ones leave. -/
theorem attempts_append :
    attempts (before ++ after) m = attempts before m ++ attempts after (replay before m) := by
  induction before generalizing m with
  | nil => rfl
  | cons e rest ih =>
    cases e with
    | begin i => exact congrArg (_ :: ·) ih
    | _ => exact ih

/-- No event makes a function take steps, so no attempt meets such a function. -/
theorem stepless_of_mem_attempts (hm : m.Stepless) {attempt : Attempt σ}
    (h : attempt ∈ attempts events m) : attempt.machine.Stepless := by
  induction events generalizing m with
  | nil => cases h
  | cons e rest ih =>
    cases e with
    | begin i =>
      rcases List.mem_cons.1 h with rfl | hrest
      · exact hm
      · exact ih hm hrest
    | _ => exact ih hm.apply h

theorem calm_of_silent (h : ∀ e ∈ events, e.Silent) :
    ∀ message ∈ messagesOf events, message.complains = false := by
  intro message hmessage
  obtain ⟨e, he, heq⟩ := List.mem_filterMap.1 hmessage
  have hsilent := h e he
  cases e with
  | say level text =>
    cases heq
    exact hsilent
  | _ => cases heq

end Events

/-- Whether the failures while events happen are reported. -/
def Reported [Surface σ] (m : Machine σ) (events : List Event) : Prop :=
  Reports (failures events m) (messagesOf events)

namespace Reported

variable [Surface σ] {m m' : Machine σ} {i : Instruction} {events before after : List Event}

theorem append (h : Reported m before) (h' : Reported (replay before m) after) :
    Reported m (before ++ after) := by
  rw [Reported, failures, attempts_append, List.filter_append, messagesOf, List.filterMap_append]
  exact Reports.append h h'

/-- Silent events have no failures among them and no complaints. -/
theorem of_silent (h : ∀ e ∈ events, e.Silent) : Reported m events := by
  have hattempts : attempts events m = [] := by
    induction events generalizing m with
    | nil => rfl
    | cons e rest ih =>
      obtain ⟨he, hrest⟩ := List.forall_mem_cons.1 h
      cases e with
      | begin i => exact he.elim
      | _ => exact ih hrest
  rw [Reported, failures, hattempts]
  exact .of_calm (calm_of_silent h)

/-- Taking up an instruction that does not fail makes no difference to the reports. -/
theorem begin (hi : (Machine.interpret i m).1 ≠ .failed) (h : Reported m events) :
    Reported m (.begin i :: events) := by
  have hfails : (⟨i, m⟩ : Attempt σ).fails = false := by simpa [Attempt.fails] using hi
  rw [Reported, failures, attempts, List.filter_cons_of_neg (by simp [hfails])]
  exact h

theorem rejected {rejection : Rejection} (hs : Statement.ofInstruction i = .error rejection)
    (hi : Machine.interpret i m = (.failed, m.say .warn rejection.text)) :
    Reported m [.begin i, .say .warn rejection.text] := by
  have hfails : (⟨i, m⟩ : Attempt σ).fails = true := by simp [Attempt.fails, hi]
  have hsays : (⟨i, m⟩ : Attempt σ).Says [⟨.warn, rejection.text⟩] := by
    rw [Attempt.Says, hi]
    exact said_say m .warn rejection.text
  rw [Reported, failures, attempts, List.filter_cons_of_pos hfails]
  exact .warning hs hsays .nil

/-- A statement that fails says an error and the message for debugging, and nothing else. Before
them it may have moved on in the text or been stopped from going too deep. -/
theorem refused {s : Statement} {fault : Fault} (hs : Statement.ofInstruction i = .ok s)
    (hi : Machine.interpret i m = (.failed, m')) (hlevel : fault.level = .error)
    (hsaid : Said m (messagesOf (Machine.refusalEvents i.operation fault)) m')
    (hattempts : attempts events m = [])
    (hmessages : messagesOf events = messagesOf (Machine.refusalEvents i.operation fault)) :
    Reported m (.begin i :: events) := by
  have hfails : (⟨i, m⟩ : Attempt σ).fails = true := by simp [Attempt.fails, hi]
  have hpair : messagesOf (Machine.refusalEvents i.operation fault) =
      [⟨.error, fault.text⟩, (⟨i, m⟩ : Attempt σ).assertion fault.text] := by
    rw [← hlevel]
    rfl
  have hsays : (⟨i, m⟩ : Attempt σ).Says
      [⟨.error, fault.text⟩, (⟨i, m⟩ : Attempt σ).assertion fault.text] := by
    rw [Attempt.Says, hi, ← hpair]
    exact hsaid
  have hall : messagesOf (.begin i :: events) =
      [⟨.error, fault.text⟩, (⟨i, m⟩ : Attempt σ).assertion fault.text] := hmessages.trans hpair
  rw [Reported, failures, attempts, hattempts, List.filter_cons_of_pos hfails, hall]
  exact .error hs hsays .nil

end Reported

/-! ## Rule by rule -/

namespace Machine

/-- An instruction that comes to invoking a function is a call. -/
theorem calls_of_comesTo {m : Machine σ} {i : Instruction} {f : Function} {args : List Number}
    (h : ComesTo i m (.invoke f args)) : i.Calls := by
  obtain ⟨-, s, hs, hplan⟩ := h
  obtain ⟨hoperation, -⟩ := Statement.ofInstruction_eq_ok_iff.1 hs
  obtain ⟨name, words, rfl | ⟨condition, rfl⟩⟩ := call_of_plan_invoke hplan
  · exact .inl hoperation
  · exact .inr ⟨condition, hoperation⟩

section Rules

variable [Surface σ] {m m' : Machine σ} {i : Instruction} {a : Action} {events : List Event}
  {outcome : Outcome}

/-- A body comes to an end or to an error of the surface; it does not fail. -/
theorem Unfolds.body_ne_failed {caller : Instruction} {body : List Instruction}
    (h : Unfolds (.body caller body) m events outcome m') : outcome ≠ .failed := by
  induction body generalizing m events with
  | nil =>
    cases h
    simp
  | cons i rest ih =>
    cases h with
    | fatal | ret => simp
    | next _ _ _ _ others => exact ih others

theorem silent_drawEvents (commands : List Command) (surface : σ) :
    ∀ e ∈ drawEvents commands surface, e.Silent := by
  intro e he
  rcases draws_of_mem_drawEvents he with ⟨command, rfl⟩ | ⟨command, error, rfl⟩
  · trivial
  · trivial

/-- An action that succeeds and starts no body complains of nothing. -/
theorem silent_performEvents {step : Machine σ → Outcome × Machine σ}
    (h : (perform step none i m a).1 ≠ .failed) : ∀ e ∈ performEvents none i m a, e.Silent := by
  cases a with
  | skip | setRegister | setVariable | removeVariable => simp [performEvents, Event.Silent]
  | log lines => simp [performEvents, Event.Silent, Level.reaches, Level.rank]
  | draw commands => exact silent_drawEvents commands m.surface
  | record name argNames =>
    rw [perform] at h
    rw [performEvents]
    cases hbody : recordBody m.unread [] with
    | complete body rest => simp [Event.Silent]
    | nested rest =>
      rw [hbody] at h
      exact absurd rfl h
  | invoke f args =>
    rw [perform, invoke] at h
    rw [performEvents, invokeEvents]
    cases hbody : f.body with
    | builtin routine =>
      cases routine <;> simp [builtinEvents, Event.Silent, Level.reaches, Level.rank]
    | host routine =>
      cases hroutine : routine args <;> simp [hroutine, Event.Silent]
    | recorded body =>
      rw [hbody] at h
      exact absurd rfl h

/-- Every rule keeps the reports in order. -/
theorem Unfolds.reported {job : Job} (h : Unfolds job m events outcome m') (hm : m.Stepless) :
    Reported m events := by
  induction h with
  | @eof i m ends =>
    have hi := (Unfolds.eof (m := m) ends).interpret_eq hm
    exact .begin (by simp [hi]) (.of_silent (by simp))
  | rejected more statement =>
    exact .rejected statement ((Unfolds.rejected more statement).interpret_eq hm)
  | @refused i m s fault more statement plan =>
    have hi := (Unfolds.refused more statement plan).interpret_eq hm
    exact .refused statement hi (onlyErrors_plan s fault plan) (said_refuse m _ fault) rfl rfl
  | @nested i m name argNames rest comes record =>
    have hi := (Unfolds.nested comes record).interpret_eq hm
    obtain ⟨-, s, hs, -⟩ := comes
    exact .refused hs hi rfl (said_refuse { m with unread := rest } _ _) rfl rfl
  | @tooDeep i m f args body comes hbody deep =>
    have hi := (Unfolds.tooDeep comes hbody deep).interpret_eq hm
    obtain ⟨-, s, hs, -⟩ := comes
    exact .refused hs hi rfl (said_refuse m _ _) rfl rfl
  | @performed i m m' a outcome comes perform succeeds =>
    have hi := (Unfolds.performed comes perform succeeds).interpret_eq hm
    have hperform : (Machine.perform step none i m a).1 ≠ .failed := by rwa [perform]
    exact .begin (by rwa [hi]) (.of_silent (silent_performEvents hperform))
  | @call i m m' f args body events outcome comes hbody room run ih =>
    have hi := (Unfolds.call comes hbody room run).interpret_eq hm
    have hentered : Reported m [.enter f.name] := .of_silent (by simp [Event.Silent])
    have hleft : Reported (replay events { m with depth := m.depth + 1 }) [.leave] :=
      .of_silent (by simp [Event.Silent])
    refine .begin ?_ (hentered.append ((ih hm).append hleft))
    rw [hi]
    exact run.body_ne_failed
  | done => exact .of_silent (by simp)
  | fatal first ih => exact ih hm
  | ret first alive returns ih => exact ih hm
  | next first leads alive stays others ih ihOthers =>
    refine (ih hm).append ?_
    rw [leads.replay_eq]
    exact ihOthers (hm.trace leads)

/-- Of the instructions that do not fail, only those that call a function let others complain. -/
theorem Unfolds.calm (h : Unfolds (.instruction i) m events outcome m') (hi : ¬ i.Calls)
    (houtcome : outcome ≠ .failed) : ∀ message ∈ messagesOf events, message.complains = false := by
  cases h with
  | eof => simp [messagesOf, Event.message?]
  | rejected | refused | nested | tooDeep => exact absurd rfl houtcome
  | @performed _ _ _ a _ comes perform succeeds =>
    have hperform : (Machine.perform step none i m a).1 ≠ .failed := by rwa [perform]
    have hcalm := calm_of_silent (silent_performEvents hperform)
    exact hcalm
  | call comes => exact absurd (calls_of_comesTo comes) hi

end Rules

/-- Whatever an instruction calls, its failures are reported. -/
theorem reported_interpretWithin [Surface σ] {m : Machine σ} {i : Instruction} (hm : m.Stepless)
    (step : Machine σ → Outcome × Machine σ) :
    Reported m (eventsWithin step (maxDepth - m.depth) i m) :=
  (unfolds_interpretWithin step _ rfl hm).reported hm

section Requests

variable [Surface σ] {m m' : Machine σ}

theorem reported_stepEvents (hm : m.Stepless) : Reported m m.stepEvents := by
  unfold stepEvents
  cases m.unread with
  | nil => exact .of_silent (by simp [stepEventsWithin])
  | cons c shorter =>
    have hadvance : Reported m [.advance (Source.next m.unread).2] :=
      .of_silent (by simp [Event.Silent])
    have hm' : { m with unread := (Source.next m.unread).2 }.Stepless := hm
    exact hadvance.append (reported_interpretWithin hm' (stepWithin shorter))

/-- Failures are reported step by step, and an error of the surface ends the run. -/
theorem reported_runEventsWithin (hm : m.Stepless) (length : Nat) :
    Reported m (runEventsWithin length m) := by
  induction length generalizing m with
  | zero => exact .of_silent (by simp [runEventsWithin])
  | succ length ih =>
    have haccount := accounts_stepEvents hm
    refine (reported_stepEvents hm).append ?_
    rw [haccount.trace.replay_eq]
    have hrest := ih (hm.trace haccount.trace)
    rcases hstep : m.step with ⟨outcome, m₁⟩
    rw [hstep] at hrest
    cases outcome with
    | eof | fatal => exact .of_silent (by simp)
    | executed | failed => exact hrest

end Requests

end Machine

namespace Request

variable [Surface σ] {m : Machine σ}

theorem reported (r : Request) (hm : m.Stepless) : Reported m (r.events m) := by
  cases r with
  | reset source => exact .of_silent (by simp [events, Event.Silent, Level.reaches, Level.rank])
  | step => exact Machine.reported_stepEvents hm
  | run => exact Machine.reported_runEventsWithin hm _
  | interpret i => exact Machine.reported_interpretWithin hm _

/-- The machine when requests are served one after another, whatever their outcomes. -/
def serveAll (requests : List Request) (m : Machine σ) : Machine σ :=
  requests.foldl (fun m r ↦ r.serve m) m

/-- What happens while requests are served one after another. -/
def allEvents : List Request → Machine σ → List Event
  | [], _ => []
  | r :: rest, m => r.events m ++ allEvents rest (r.serve m)

/-- The events of all requests lead to the machine that has served them. -/
theorem trace_allEvents (requests : List Request) (hm : m.Stepless) :
    Trace m (allEvents requests m) (serveAll requests m) := by
  induction requests generalizing m with
  | nil => exact .nil m
  | cons r rest ih =>
    obtain ⟨error?, haccount⟩ := r.accounts hm
    exact haccount.trace.append (ih (hm.trace haccount.trace))

theorem reported_allEvents (requests : List Request) (hm : m.Stepless) :
    Reported m (allEvents requests m) := by
  induction requests generalizing m with
  | nil => exact .of_silent (by simp [allEvents])
  | cons r rest ih =>
    obtain ⟨error?, haccount⟩ := r.accounts hm
    refine (r.reported hm).append ?_
    rw [haccount.trace.replay_eq]
    exact ih (hm.trace haccount.trace)

end Request

namespace Machine

/-- Whatever a machine of a session is asked for, one request after another, it says what its events
say, and the complaints among that are the reports of the instructions that fail, at top level and
in the bodies that are called. So every error has the message for debugging right behind it, there
are as many warnings and errors as instructions that fail, and an instruction that neither fails nor
calls a function says none. -/
theorem failures_reported_once [Surface σ] {measured : σ} {m : Machine σ} (h : Session measured m)
    (requests : List Request) :
    let events := Request.allEvents requests m
    let messages := messagesOf events
    Trace m events (Request.serveAll requests m) ∧
      Said m messages (Request.serveAll requests m) ∧
      Reports ((attempts events m).filter Attempt.fails) messages ∧
      (∀ k text, messages[k]? = some ⟨.error, text⟩ →
        ∃ attempt ∈ attempts events m, attempt.fails = true ∧
          messages[k + 1]? = some ⟨.debug,
            "Assertion failed in '" ++ attempt.instruction.operation ++ "': " ++ text⟩) ∧
      messages.countP Message.complains = (attempts events m).countP Attempt.fails ∧
      ∀ attempt ∈ attempts events m, attempt.fails = false → ¬ attempt.instruction.Calls →
        ∃ said, attempt.Says said ∧ ∀ message ∈ said, message.complains = false := by
  intro events messages
  have hm := h.fromSource.stepless
  have htrace := Request.trace_allEvents requests hm
  have hreports := Request.reported_allEvents requests hm
  refine ⟨htrace, htrace.said, hreports, fun k text hk ↦ ?_, ?_, ?_⟩
  · obtain ⟨attempt, hmem, hnext⟩ := hreports.next_of_error hk
    obtain ⟨hattempt, hfails⟩ := List.mem_filter.1 hmem
    exact ⟨attempt, hattempt, hfails, hnext⟩
  · rw [hreports.countP_complains, List.countP_eq_length_filter]
    rfl
  · intro attempt hattempt hfails hcalls
    have hstepless := stepless_of_mem_attempts hm hattempt
    have hunfolds := unfolds_interpretWithin (i := attempt.instruction)
      (stepWithin attempt.machine.unread) _ rfl hstepless
    have hsucceeds : (interpret attempt.instruction attempt.machine).1 ≠ .failed := by
      simpa [Attempt.fails] using hfails
    exact ⟨_, (accounts_interpret hstepless).trace.said, hunfolds.calm hcalls hsucceeds⟩

/-- A machine that has recorded an unknown instruction and one that is refused. -/
def withFailures : Machine Canvas :=
  (fresh "").define (.recorded "f" [] [⟨"Jump", []⟩, ⟨"Ret", ["x"]⟩])

theorem session_withFailures : Session (Canvas.empty 640 480) withFailures := by
  have hbody : recordBody "Jump\nRet x".toList [] =
      .complete [⟨"Jump", []⟩, ⟨"Ret", ["x"]⟩] [] := by
    decide +kernel
  rw [withFailures, ← interpret_func_fresh rfl hbody]
  exact .serve (.start _ _ _) (.interpret _)

/-- The body goes on behind its first failure. -/
theorem messagesOf_events_withFailures :
    messagesOf (events ⟨"call", ["f"]⟩ withFailures) =
      [⟨.warn, "Invalid Instruction \"Jump\""⟩, ⟨.error, "Numeric value expected"⟩,
        ⟨.debug, "Assertion failed in 'Ret': Numeric value expected"⟩] := by
  have hf : withFailures.functions["f"]? =
      some (.recorded "f" [] [⟨"Jump", []⟩, ⟨"Ret", ["x"]⟩]) :=
    getElem?_define_self (fresh "") _
  have hroom : maxDepth - withFailures.depth = 255 + 1 := rfl
  rw [events, hroom, eventsWithin, eventsWith_performed rfl rfl (plan_call hf rfl)]
  decide +kernel

/-- The call is carried out, and the two failures in it are reported as any others. -/
theorem call_withFailures_reported_once :
    Session (Canvas.empty 640 480) withFailures ∧
      messagesOf (Request.allEvents [.interpret ⟨"call", ["f"]⟩] withFailures) =
        [⟨.warn, "Invalid Instruction \"Jump\""⟩, ⟨.error, "Numeric value expected"⟩,
          ⟨.debug, "Assertion failed in 'Ret': Numeric value expected"⟩] ∧
      (attempts (Request.allEvents [.interpret ⟨"call", ["f"]⟩] withFailures)
        withFailures).countP Attempt.fails = 2 := by
  obtain ⟨-, -, -, -, hcount, -⟩ :=
    failures_reported_once session_withFailures [.interpret ⟨"call", ["f"]⟩]
  have hevents : Request.allEvents [.interpret ⟨"call", ["f"]⟩] withFailures =
      events ⟨"call", ["f"]⟩ withFailures := List.append_nil _
  rw [hevents] at hcount ⊢
  rw [messagesOf_events_withFailures] at hcount ⊢
  exact ⟨session_withFailures, rfl, hcount.symm⟩

end Machine

end PenMachine
