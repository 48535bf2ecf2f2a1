import Mathlib.Data.List.Basic
import PenMachine.Proofs.Session

/-!
# No access fails

A second machine that takes nothing for granted. It is told how many parameters each operation
accepts, and then reads them by position; it takes a routine's argument by position; it looks at a
variable's name each time it stores one, and it fetches the value of a variable that it knows to
exist without knowing that there is a value. Each of these can fail (`Crash`). In every session
none does: whatever instruction the careful machine is given, it ends as `Machine.interpret` does
(`Machine.interpretation_never_crashes`).

The arities and the reads stand apart, so that one declaration that is too generous or one read that
goes too far shows in `Operation.read_of_accepts` or in `Machine.checkedBuiltin_eq`. That variables
are named properly is known of every machine in a session, and every event keeps it, so it holds for
the instructions of a body as well.
-/

namespace PenMachine

variable {σ : Type}

/-- The ways to fail for good. -/
inductive Crash where
  /-- There is no parameter at this place. -/
  | parameter (index : Nat)
  /-- There is no first parameter behind which the others are taken or counted. -/
  | otherParameters
  /-- There is no argument at this place. -/
  | argument (index : Nat)
  /-- The variable to be stored has a name that is none. -/
  | storedName (name : String)
  /-- The variable exists but has no value. -/
  | missingValue (name : String)
  deriving DecidableEq

def parameterAt (params : List String) (index : Nat) : Except Crash String :=
  match params[index]? with
  | some param => .ok param
  | none => .error (.parameter index)

def otherParameters (params : List String) : Except Crash (List String) :=
  match params with
  | [] => .error .otherParameters
  | _ :: rest => .ok rest

namespace Operation

/-- The numbers of parameters that are declared for an operation. -/
def accepts : Operation → Nat → Bool
  | print, _ => true
  | func, n | call, n | callWhen _, n => 1 ≤ n
  | dump, n | fill, n | stroke, n => n = 0
  | del, n | ret, n | path, n | width, n => n = 1
  | set, n | setWhen _, n | operate _, n | update _, n | compare, n | move, n | line, n => n = 2
  | color, n => 2 ≤ n && n ≤ 5

/-- The statement that an operation makes with the parameters at the places where it looks for them.
A colour has five parameters or two; of others only the number is asked. -/
def read : Operation → List String → Except Crash Statement
  | set, params => return .set (← parameterAt params 0) (← parameterAt params 1)
  | del, params => return .del (← parameterAt params 0)
  | print, params => return .print params
  | func, params => return .func (← parameterAt params 0) (← otherParameters params)
  | call, params => return .call (← parameterAt params 0) (← otherParameters params)
  | ret, params => return .ret (← parameterAt params 0)
  | dump, _ => return .dump
  | operate op, params => return .operate op (← parameterAt params 0) (← parameterAt params 1)
  | update op, params => return .update op (← parameterAt params 0) (← parameterAt params 1)
  | compare, params => return .compare (← parameterAt params 0) (← parameterAt params 1)
  | callWhen c, params => return .callWhen c (← parameterAt params 0) (← otherParameters params)
  | setWhen c, params => return .setWhen c (← parameterAt params 0) (← parameterAt params 1)
  | path, params => return .path (← parameterAt params 0)
  | fill, _ => return .fill
  | stroke, _ => return .stroke
  | move, params => return .move (← parameterAt params 0) (← parameterAt params 1)
  | line, params => return .line (← parameterAt params 0) (← parameterAt params 1)
  | width, params => return .width (← parameterAt params 0)
  | color, params => do
    let target ← parameterAt params 0
    if params.length = 5 then
      let red ← parameterAt params 1
      let green ← parameterAt params 2
      let blue ← parameterAt params 3
      let alpha ← parameterAt params 4
      return .color target [red, green, blue, alpha]
    else if params.length = 2 then return .color target [← parameterAt params 1]
    else return .color target (← otherParameters params)

/-- Where the declared number of parameters is there, so is each that is looked for. -/
theorem read_of_accepts {op : Operation} {params : List String}
    (h : op.accepts params.length = true) :
    ∃ s, op.read params = .ok s ∧ op.statement? params = some s := by
  cases op with
  | print => exact ⟨_, rfl, rfl⟩
  | func | call | callWhen =>
    cases params with
    | nil => cases h
    | cons name rest => exact ⟨_, rfl, rfl⟩
  | dump | fill | stroke =>
    obtain rfl := List.length_eq_zero_iff.1 (of_decide_eq_true h)
    exact ⟨_, rfl, rfl⟩
  | del | ret | path | width =>
    obtain ⟨param, rfl⟩ := List.length_eq_one_iff.1 (of_decide_eq_true h)
    exact ⟨_, rfl, rfl⟩
  | set | setWhen | operate | update | compare | move | line =>
    obtain ⟨first, second, rfl⟩ := List.length_eq_two.1 (of_decide_eq_true h)
    exact ⟨_, rfl, rfl⟩
  | color =>
    match params, h with
    | [_, _], _ | [_, _, _], _ | [_, _, _, _], _ | [_, _, _, _, _], _ => exact ⟨_, rfl, rfl⟩
    | _ :: _ :: _ :: _ :: _ :: _ :: rest, h =>
      simp only [accepts, List.length_cons, Bool.and_eq_true, decide_eq_true_eq] at h
      omega

/-- An operation makes no statement with another number of parameters. -/
theorem accepts_of_statement? {op : Operation} {params : List String} {s : Statement}
    (h : op.statement? params = some s) : op.accepts params.length = true := by
  unfold statement? at h
  split at h
  case h_19 target part parts =>
    split at h
    · rename_i hlength
      simp only [accepts, List.length_cons, Bool.and_eq_true, decide_eq_true_eq]
      omega
    · cases h
  case h_20 => cases h
  all_goals simp [accepts]

/-- If it were declared that `set` takes one parameter, its value would be missed. -/
example : read .set ["$.x"] = .error (.parameter 1) := rfl

end Operation

/-- The statement of an instruction, by the declared numbers of parameters. -/
def Statement.checkedOfInstruction (i : Instruction) :
    Except Crash (Except Rejection Statement) :=
  match Operation.ofName? (Text.lower i.operation) with
  | none => .ok (.error (.unknownOperation i.operation))
  | some operation =>
    if operation.accepts i.params.length then .ok <$> operation.read i.params
    else .ok (.error (.argumentCount i.params.length i.operation))

/-- The declared numbers of parameters are those that the operations look for. -/
theorem Statement.checkedOfInstruction_eq (i : Instruction) :
    checkedOfInstruction i = .ok (ofInstruction i) := by
  unfold checkedOfInstruction ofInstruction
  cases Operation.ofName? (Text.lower i.operation) with
  | none => rfl
  | some operation =>
    cases haccepts : operation.accepts i.params.length with
    | true =>
      obtain ⟨s, hread, hs⟩ := Operation.read_of_accepts haccepts
      simp only [haccepts, if_true, hread, hs]
      rfl
    | false =>
      have hs : operation.statement? i.params = none := by
        rw [Option.eq_none_iff_forall_ne_some]
        intro s hs
        rw [Operation.accepts_of_statement? hs] at haccepts
        cases haccepts
      simp [haccepts, hs]

namespace Machine

section Plans

variable {m : Machine σ}

/-- Stores a value, or finds no room for it. The name must be that of a variable. -/
def checkedStore (m : Machine σ) (name : String) (value : Number) :
    Except Crash (Except Fault Action) :=
  if !isVariableName name then .error (.storedName name)
  else if m.vars.hasRoom name then .ok (.ok (.setVariable name value))
  else .ok (.error .tooManyVariables)

def checkedPlanSet (m : Machine σ) (name value : String) : Except Crash (Except Fault Action) :=
  if !hasSigil name then .ok (.error .noSigil)
  else if !isVariableName name then .ok (.error .noNamespace)
  else
    match m.demand value (some "The value of a variable must be a number") (.infinity true)
      (.infinity false) .error with
    | .error fault => .ok (.error fault)
    | .ok n => m.checkedStore name n

/-- The variable is known to exist before its value is fetched. -/
def checkedPlanUpdate (m : Machine σ) (op : Operator) (name right : String) :
    Except Crash (Except Fault Action) :=
  if !m.vars.contains name then .ok (.error (.updateOfNoVariable op))
  else
    match m.vars.get? name with
    | none => .error (.missingValue name)
    | some current =>
      match m.number right with
      | .error fault => .ok (.error fault)
      | .ok n => m.checkedStore name (op.apply current n)

/-- What a statement comes to. Only those that store a variable have anything left to check. -/
def checkedPlan (m : Machine σ) : Statement → Except Crash (Except Fault Action)
  | .set name value => m.checkedPlanSet name value
  | .setWhen condition name value =>
    if condition.holds m.registers.flags then m.checkedPlanSet name value else .ok (.ok .skip)
  | .update op name right => m.checkedPlanUpdate op name right
  | s => .ok (m.plan s)

theorem checkedPlanSet_eq (name value : String) :
    m.checkedPlanSet name value = .ok (m.planSet name value) := by
  unfold checkedPlanSet planSet
  cases hasSigil name with
  | false => rfl
  | true =>
    cases hname : isVariableName name with
    | false => rfl
    | true =>
      simp only [Bool.not_true, Bool.false_eq_true, if_false]
      generalize m.demand value _ _ _ _ = demanded
      cases demanded with
      | error fault => rfl
      | ok n =>
        simp only [checkedStore, hname, Bool.not_true, Bool.false_eq_true, if_false]
        cases m.vars.hasRoom name with
        | true => rfl
        | false => rfl

/-- What is stored has the name of a variable, so that an update need not check it again. -/
theorem isVariableName_of_contains (hvars : m.vars.Sound) {name : String}
    (h : m.vars.contains name = true) : isVariableName name = true := by
  obtain ⟨rest, hname⟩ := hvars.named name h
  simp [isVariableName, ← hname]

/-- A variable that exists has a value and is named properly, and writing to it finds room. -/
theorem checkedPlanUpdate_eq (hvars : m.vars.Sound) (op : Operator) (name right : String) :
    m.checkedPlanUpdate op name right = .ok (m.planUpdate op name right) := by
  have hcontains : m.vars.contains name = (m.vars.get? name).isSome :=
    Std.HashMap.contains_eq_isSome_getElem?
  unfold checkedPlanUpdate planUpdate
  cases hvalue : m.vars.get? name with
  | none =>
    rw [hvalue, Option.isSome_none] at hcontains
    simp [hcontains]
  | some current =>
    rw [hvalue, Option.isSome_some] at hcontains
    have hname := isVariableName_of_contains hvars hcontains
    have hroom : m.vars.hasRoom name = true := by simp [Variables.hasRoom, hcontains]
    simp only [hcontains, Bool.not_true, Bool.false_eq_true, if_false]
    cases m.number right with
    | error fault => rfl
    | ok n => simp [checkedStore, hname, hroom, Functor.map, Except.map]

/-- The checks of a plan never fail. -/
theorem checkedPlan_eq (hvars : m.vars.Sound) (s : Statement) :
    m.checkedPlan s = .ok (m.plan s) := by
  cases s with
  | set name value => exact checkedPlanSet_eq name value
  | setWhen condition name value =>
    rw [checkedPlan, plan, checkedPlanSet_eq]
    split
    · rfl
    · rfl
  | update op name right => exact checkedPlanUpdate_eq hvars op name right
  | _ => rfl

end Plans

/-- The argument at the place where a routine of one argument looks for it. -/
def firstArgument (args : List Number) : Except Crash Number :=
  match args[0]? with
  | some arg => .ok arg
  | none => .error (.argument 0)

/-- Runs a routine of the machine's own. -/
def checkedBuiltin (m : Machine σ) : Builtin → List Number → Except Crash (Number × Machine σ)
  | .log, args => return ((← firstArgument args).log10, m)
  | .sin, args => return ((← firstArgument args).sin, m)
  | .cos, args => return ((← firstArgument args).cos, m)
  | .tan, args => return ((← firstArgument args).tan, m)
  | .sqrt, args => return ((← firstArgument args).sqrt, m)
  | routine, args => return m.runBuiltin routine args

/-- With as many arguments as are declared for it, a routine finds those that it looks for. -/
theorem checkedBuiltin_eq {f : Function} (hf : f ∈ Function.builtins) {routine : Builtin}
    (hbody : f.body = .builtin routine) {args : List Number}
    (hfits : f.arity.allows args.length = true) (m : Machine σ) :
    m.checkedBuiltin routine args = .ok (m.runBuiltin routine args) := by
  have hone : f.arity = .exactly 1 → ∃ arg, args = [arg] := by
    intro harity
    rw [harity] at hfits
    obtain ⟨hleast, hmost⟩ := Bool.and_eq_true_iff.1 hfits
    have hlength : args.length = 1 :=
      Nat.le_antisymm (of_decide_eq_true hmost) (of_decide_eq_true hleast)
    exact List.length_eq_one_iff.1 hlength
  simp only [Function.builtins, List.mem_cons, List.not_mem_nil, or_false] at hf
  rcases hf with rfl | rfl | rfl | rfl | rfl | rfl | rfl | rfl
  all_goals cases hbody
  all_goals first
    | rfl
    | obtain ⟨arg, rfl⟩ := hone rfl
      rfl

def checkedRunBody (perform : Instruction → Machine σ → Except Crash (Outcome × Machine σ)) :
    List Instruction → Machine σ → Except Crash (Option Error × Machine σ)
  | [], m => .ok (none, m)
  | i :: rest, m =>
    match perform i m with
    | .error crash => .error crash
    | .ok (.fatal error, m) => .ok (some error, m)
    | .ok (_, m) => if i.is "ret" then .ok (none, m) else checkedRunBody perform rest m

def checkedInvoke (step : Machine σ → Outcome × Machine σ)
    (deeper : Option (Instruction → Machine σ → Except Crash (Outcome × Machine σ)))
    (i : Instruction) (f : Function) (args : List Number) (m : Machine σ) :
    Except Crash (Outcome × Machine σ) :=
  match f.body with
  | .builtin routine => do
    let (value, m) ← m.checkedBuiltin routine args
    return (.executed i, m.setRegister .ret value)
  | .host _ => .ok (invoke step none i f args m)
  | .recorded body =>
    match deeper with
    | none => .ok (.failed, m.refuse i.operation (.callDepth f.name))
    | some perform => do
      let depth := m.depth
      let (error?, m) ← checkedRunBody perform body { m with depth := depth + 1 }
      return executedUnless i (error?, { m with depth })

/-- Carries out an action. A plan has checked all that there is to be checked, save for calls. -/
def checkedPerform [Surface σ] (step : Machine σ → Outcome × Machine σ)
    (deeper : Option (Instruction → Machine σ → Except Crash (Outcome × Machine σ)))
    (i : Instruction) (m : Machine σ) : Action → Except Crash (Outcome × Machine σ)
  | .invoke f args => checkedInvoke step deeper i f args m
  | a => .ok (perform step none i m a)

def checkedInterpretWith [Surface σ] (step : Machine σ → Outcome × Machine σ)
    (deeper : Option (Instruction → Machine σ → Except Crash (Outcome × Machine σ)))
    (i : Instruction) (m : Machine σ) : Except Crash (Outcome × Machine σ) :=
  if i.isEof then .ok (.eof, m)
  else match Statement.checkedOfInstruction i with
    | .error crash => .error crash
    | .ok (.error rejection) => .ok (.failed, m.say .warn rejection.text)
    | .ok (.ok statement) =>
      match m.checkedPlan statement with
      | .error crash => .error crash
      | .ok (.error fault) => .ok (.failed, m.refuse i.operation fault)
      | .ok (.ok action) => checkedPerform step deeper i m action

def checkedInterpretWithin [Surface σ] (step : Machine σ → Outcome × Machine σ) :
    Nat → Instruction → Machine σ → Except Crash (Outcome × Machine σ)
  | 0 => checkedInterpretWith step none
  | room + 1 => checkedInterpretWith step (some (checkedInterpretWithin step room))

/-- Carries out an instruction, with everything checked that could fail. -/
def checkedInterpret [Surface σ] (i : Instruction) (m : Machine σ) :
    Except Crash (Outcome × Machine σ) :=
  checkedInterpretWithin (stepWithin m.unread) (maxDepth - m.depth) i m

def checkedStep [Surface σ] (m : Machine σ) : Except Crash (Outcome × Machine σ) :=
  match m.unread with
  | [] => .ok (.eof, m)
  | _ :: shorter =>
    let (i, rest) := Source.next m.unread
    checkedInterpretWithin (stepWithin shorter) (maxDepth - m.depth) i { m with unread := rest }

/-! ## The two machines agree -/

section Agreement

variable [Surface σ] {measured : σ} {m m' : Machine σ} {i : Instruction}

theorem checkedRunBody_eq {runner : Runner σ} {depth : Nat}
    {checked : Instruction → Machine σ → Except Crash (Outcome × Machine σ)}
    (hrunner : ∀ (j : Instruction) (m : Machine σ), m.depth = depth → m.Guarded measured →
      checked j m = .ok (runner.run j m) ∧
        Accounts m (runner.events j m) (runner.run j m).1.error? (runner.run j m).2)
    (body : List Instruction) (hdepth : m.depth = depth) (hm : m.Guarded measured) :
    checkedRunBody checked body m = .ok (runBody runner.run body m) := by
  induction body generalizing m with
  | nil => rfl
  | cons j rest ih =>
    obtain ⟨hchecked, haccount⟩ := hrunner j m hdepth hm
    have hrest := ih (haccount.depth.trans hdepth) (hm.trace haccount.trace)
    rw [checkedRunBody, runBody, hchecked]
    rcases hrun : runner.run j m with ⟨outcome, m₁⟩
    rw [hrun] at hrest
    cases outcome with
    | fatal error => rfl
    | eof | executed | failed =>
      simp only [hrest]
      split
      · rfl
      · rfl

/-- Whether the checked way to run instructions one call deeper goes like the plain one. At the
depth limit there is neither. -/
def Corresponds (measured : σ) (m : Machine σ) :
    Option (Instruction → Machine σ → Except Crash (Outcome × Machine σ)) →
      Option (Runner σ) → Prop
  | none, none => True
  | some checked, some runner =>
    m.depth < maxDepth ∧ ∀ (j : Instruction) (m' : Machine σ), m'.depth = m.depth + 1 →
      m'.Guarded measured → checked j m' = .ok (runner.run j m') ∧
        Accounts m' (runner.events j m') (runner.run j m').1.error? (runner.run j m').2
  | _, _ => False

variable {step : Machine σ → Outcome × Machine σ} {deeper : Option (Runner σ)}
  {checked : Option (Instruction → Machine σ → Except Crash (Outcome × Machine σ))}

/-- A call is planned with as many arguments as the function takes, so its routine finds them. -/
theorem checkedInvoke_eq (hdeeper : Corresponds measured m checked deeper)
    (hm : m.Guarded measured) {f : Function} {args : List Number}
    (hf : (Action.invoke f args).Allowed m) :
    checkedInvoke step checked i f args m =
      .ok (invoke step (deeper.map Runner.run) i f args m) := by
  obtain ⟨name, hname, hfits⟩ := hf
  unfold checkedInvoke invoke
  cases hbody : f.body with
  | builtin routine =>
    have hown : f ∈ Function.builtins := by
      rcases hm.fromSource name f hname with ⟨hown, -⟩ | ⟨argNames, body, rfl, -⟩
      · exact hown
      · cases hbody
    simp only [checkedBuiltin_eq hown hbody hfits]
    rfl
  | host routine => rfl
  | recorded body =>
    match checked, deeper, hdeeper with
    | none, none, _ => rfl
    | some checked, some runner, ⟨hlt, hrunner⟩ =>
      have hentered := hm.trace (.single (e := .enter f.name) hlt)
      have hrun := checkedRunBody_eq hrunner body rfl hentered
      simp only [Event.apply] at hrun
      simp only [hrun]
      rfl

theorem checkedPerform_eq (hdeeper : Corresponds measured m checked deeper)
    (hm : m.Guarded measured) {a : Action} (ha : a.Allowed m) :
    checkedPerform step checked i m a = .ok (perform step (deeper.map Runner.run) i m a) := by
  cases a with
  | invoke f args => exact checkedInvoke_eq hdeeper hm ha
  | _ => rfl

theorem checkedInterpretWith_eq (hdeeper : Corresponds measured m checked deeper)
    (hm : m.Guarded measured) :
    checkedInterpretWith step checked i m =
      .ok (interpretWith step (deeper.map Runner.run) i m) := by
  unfold checkedInterpretWith
  cases heof : i.isEof with
  | true =>
    rw [interpretWith_eof heof]
    rfl
  | false =>
    simp only [Bool.false_eq_true, if_false, Statement.checkedOfInstruction_eq]
    cases hs : Statement.ofInstruction i with
    | error rejection => rw [interpretWith_rejected heof hs]
    | ok s =>
      simp only [checkedPlan_eq hm.sound.vars]
      cases hplan : m.plan s with
      | error fault => rw [interpretWith_refused heof hs hplan]
      | ok a =>
        rw [interpretWith_performed heof hs hplan]
        exact checkedPerform_eq hdeeper hm (plans_of_plan hplan).allowed

/-- The induction is on the room that is left for calls, which the depth determines. -/
theorem checkedInterpretWithin_eq (step : Machine σ → Outcome × Machine σ) (room : Nat)
    (hroom : room = maxDepth - m.depth) (hm : m.Guarded measured) :
    checkedInterpretWithin step room i m = .ok (interpretWithin step room i m) := by
  induction room generalizing i m with
  | zero =>
    have hdeeper : Corresponds measured m none none := trivial
    exact checkedInterpretWith_eq hdeeper hm
  | succ room ih =>
    have hdeeper : Corresponds measured m (some (checkedInterpretWithin step room))
        (some ⟨interpretWithin step room, eventsWithin step room⟩) := by
      refine ⟨by omega, fun j m' hdepth hm' ↦ ⟨ih (by omega) hm', ?_⟩⟩
      exact accounts_interpretWithin step room (by omega) hm'.fromSource.stepless
    exact checkedInterpretWith_eq hdeeper hm

theorem checkedStep_eq (hm : m.Guarded measured) : m.checkedStep = .ok m.step := by
  unfold checkedStep step
  cases htext : m.unread with
  | nil => rfl
  | cons c shorter =>
    have hadvanced := hm.trace (.single (e := .advance (Source.next m.unread).2) trivial)
    have hstep := checkedInterpretWithin_eq (i := (Source.next m.unread).1)
      (stepWithin shorter) _ rfl hadvanced
    rw [htext] at hstep
    rw [stepWithin, htext]
    exact hstep

end Agreement

/-- Nothing crashes a machine in a session. Whatever operation and parameters an instruction has, it
is carried out with every access checked as without, and so is the next one of the program. The
arity that is declared for an operation covers all the parameters that it reads, and that of a
routine its argument. -/
theorem interpretation_never_crashes [Surface σ] {measured : σ} {m : Machine σ}
    (h : Session measured m) :
    (∀ i : Instruction, checkedInterpret i m = .ok (interpret i m)) ∧
      m.checkedStep = .ok m.step ∧
      (∀ (op : Operation) (params : List String), op.accepts params.length = true →
        ∃ s, op.read params = .ok s ∧ op.statement? params = some s) ∧
      ∀ f ∈ Function.builtins, ∀ (routine : Builtin) (args : List Number),
        f.body = .builtin routine → f.arity.allows args.length = true →
          m.checkedBuiltin routine args = .ok (m.runBuiltin routine args) := by
  have hm := guarded_of_session h
  refine ⟨fun i ↦ checkedInterpretWithin_eq _ _ rfl hm, checkedStep_eq hm, ?_, ?_⟩
  · exact fun op params ↦ Operation.read_of_accepts
  · exact fun f hf routine args hbody hfits ↦ checkedBuiltin_eq hf hbody hfits m

/-- Three parameters are neither those of a name nor those of channels. They are refused, and what
is behind the first is not read by position. -/
theorem color_ofTwoParts_never_crashes :
    Session (fullCanvas.resize 100 50) onResizedCanvas ∧
      (interpret ⟨"rgba", ["line", "1", "2"]⟩ onResizedCanvas).1 = .failed ∧
      checkedInterpret ⟨"rgba", ["line", "1", "2"]⟩ onResizedCanvas =
        .ok (interpret ⟨"rgba", ["line", "1", "2"]⟩ onResizedCanvas) := by
  obtain ⟨hinterpret, -⟩ := interpretation_never_crashes session_onResizedCanvas
  exact ⟨session_onResizedCanvas, rfl, hinterpret _⟩

end Machine

end PenMachine
