import PenMachine.Proofs.Evaluation

/-!
# What happens by the rules

The rules of evaluation with the events of each rule. `Machine.Unfolds` derives what happens while
an instruction is carried out from what happens in the bodies that it calls, so a property of events
is proved rule by rule and not part by part of the machine. The events that the machine lists are
those of a derivation (`Machine.unfolds_interpretWithin`), and the rules without the events are
those of `Machine.Executes`, so every instruction in a derivation has the outcome that the machine
gives it (`Machine.Unfolds.interpret_eq`).
-/

namespace PenMachine.Machine

variable {σ : Type}

/-- The rules of carrying out a job, with what happens meanwhile. -/
inductive Unfolds [Surface σ] : Job → Machine σ → List Event → Outcome → Machine σ → Prop where
  | eof {i : Instruction} {m : Machine σ} (ends : i.isEof = true) :
    Unfolds (.instruction i) m [.begin i] .eof m
  | rejected {i : Instruction} {m : Machine σ} {rejection : Rejection} (more : i.isEof = false)
    (statement : Statement.ofInstruction i = .error rejection) :
    Unfolds (.instruction i) m [.begin i, .say .warn rejection.text] .failed
      (m.say .warn rejection.text)
  | refused {i : Instruction} {m : Machine σ} {s : Statement} {fault : Fault}
    (more : i.isEof = false) (statement : Statement.ofInstruction i = .ok s)
    (plan : m.plan s = .error fault) :
    Unfolds (.instruction i) m (.begin i :: refusalEvents i.operation fault) .failed
      (m.refuse i.operation fault)
  | nested {i : Instruction} {m : Machine σ} {name : String} {argNames : List String}
    {rest : List Char} (comes : ComesTo i m (.record name argNames))
    (record : recordBody m.unread [] = .nested rest) :
    Unfolds (.instruction i) m
      (.begin i :: .advance rest :: refusalEvents i.operation .nestedFunction) .failed
      ({ m with unread := rest }.refuse i.operation .nestedFunction)
  | tooDeep {i : Instruction} {m : Machine σ} {f : Function} {args : List Number}
    {body : List Instruction} (comes : ComesTo i m (.invoke f args))
    (hbody : f.body = .recorded body) (deep : maxDepth ≤ m.depth) :
    Unfolds (.instruction i) m
      (.begin i :: .overflow f.name :: refusalEvents i.operation (.callDepth f.name)) .failed
      (m.refuse i.operation (.callDepth f.name))
  /-- An action that does not fail whatever room there is for calls starts no body. -/
  | performed {i : Instruction} {m m' : Machine σ} {a : Action} {outcome : Outcome}
    (comes : ComesTo i m a) (perform : ∀ step deeper, perform step deeper i m a = (outcome, m'))
    (succeeds : outcome ≠ .failed) :
    Unfolds (.instruction i) m (.begin i :: performEvents none i m a) outcome m'
  | call {i : Instruction} {m m' : Machine σ} {f : Function} {args : List Number}
    {body : List Instruction} {events : List Event} {outcome : Outcome}
    (comes : ComesTo i m (.invoke f args)) (hbody : f.body = .recorded body)
    (room : m.depth < maxDepth)
    (run : Unfolds (.body i body) { m with depth := m.depth + 1 } events outcome m') :
    Unfolds (.instruction i) m (.begin i :: .enter f.name :: events ++ [.leave]) outcome
      { m' with depth := m.depth }
  | done {caller : Instruction} {m : Machine σ} :
    Unfolds (.body caller []) m [] (.executed caller) m
  | fatal {caller i : Instruction} {rest : List Instruction} {m m' : Machine σ}
    {events : List Event} {error : Error}
    (first : Unfolds (.instruction i) m events (.fatal error) m') :
    Unfolds (.body caller (i :: rest)) m events (.fatal error) m'
  | ret {caller i : Instruction} {rest : List Instruction} {m m' : Machine σ}
    {events : List Event} {outcome : Outcome}
    (first : Unfolds (.instruction i) m events outcome m') (alive : outcome.error? = none)
    (returns : i.is "ret" = true) :
    Unfolds (.body caller (i :: rest)) m events (.executed caller) m'
  | next {caller i : Instruction} {rest : List Instruction} {m m₁ m' : Machine σ}
    {events later : List Event} {outcome outcome' : Outcome}
    (first : Unfolds (.instruction i) m events outcome m₁) (leads : Trace m events m₁)
    (alive : outcome.error? = none) (stays : i.is "ret" = false)
    (others : Unfolds (.body caller rest) m₁ later outcome' m') :
    Unfolds (.body caller (i :: rest)) m (events ++ later) outcome' m'

variable [Surface σ] {m m' : Machine σ} {i : Instruction} {job : Job} {events : List Event}
  {outcome : Outcome}

/-- An action that succeeds has a derivation without events as well. -/
theorem executes_performed {a : Action} (comes : ComesTo i m a)
    (hperform : ∀ step deeper, perform step deeper i m a = (outcome, m')) :
    Executes (.instruction i) m outcome m' := by
  by_cases hrecord : ∃ name argNames, a = .record name argNames
  · obtain ⟨name, argNames, rfl⟩ := hrecord
    obtain ⟨deeper, hcarry⟩ := carryOut_of_comesTo step comes
    have hexecutes : Executes (.instruction i) m (carryOut step (.instruction i) m).1
        (carryOut step (.instruction i) m).2 := executes_record comes
    rwa [hcarry, hperform] at hexecutes
  · exact .performed comes (fun name argNames ha ↦ hrecord ⟨name, argNames, ha⟩) hperform

/-- Without its events a derivation is one by the rules of evaluation. -/
theorem Unfolds.executes (h : Unfolds job m events outcome m') : Executes job m outcome m' := by
  induction h with
  | eof ends => exact .eof ends
  | rejected more statement => exact .rejected more statement
  | refused more statement plan => exact .refused more statement plan
  | @nested _ m _ _ _ comes record =>
    have hrecords := records_recordBody m.unread []
    rw [record] at hrecords
    exact .nested comes hrecords
  | tooDeep comes hbody deep => exact .tooDeep comes hbody deep
  | performed comes perform succeeds => exact executes_performed comes perform
  | call comes hbody room run ih => exact .call comes hbody room ih
  | done => exact .done
  | fatal first ih => exact .fatal ih
  | ret first alive returns ih => exact .ret ih alive returns
  | next first leads alive stays others ih ihOthers => exact .next ih alive stays ihOthers

/-- In a derivation every instruction has the outcome that the machine gives it. -/
theorem Unfolds.interpret_eq (h : Unfolds (.instruction i) m events outcome m')
    (hm : m.Stepless) : interpret i m = (outcome, m') :=
  h.executes.carryOut_eq hm (stepWithin m.unread)

/-- The derivation of a body is put together from those of its instructions. -/
theorem unfolds_runBody {runner : Runner σ} {depth : Nat}
    (hrunner : ∀ (j : Instruction) (m : Machine σ), m.depth = depth → m.Stepless →
      Unfolds (.instruction j) m (runner.events j m) (runner.run j m).1 (runner.run j m).2 ∧
        Accounts m (runner.events j m) (runner.run j m).1.error? (runner.run j m).2)
    (caller : Instruction) (body : List Instruction) (hdepth : m.depth = depth)
    (hm : m.Stepless) :
    Unfolds (.body caller body) m (bodyEvents runner body m)
      (executedUnless caller (runBody runner.run body m)).1
      (executedUnless caller (runBody runner.run body m)).2 := by
  induction body generalizing m with
  | nil => exact .done
  | cons j rest ih =>
    obtain ⟨hfirst, haccount⟩ := hrunner j m hdepth hm
    unfold bodyEvents runBody
    rcases hrun : runner.run j m with ⟨outcome, m₁⟩
    rw [hrun] at hfirst haccount
    cases outcome with
    | fatal error => simpa [executedUnless] using Unfolds.fatal hfirst
    | eof | executed | failed =>
      cases hret : j.is "ret" with
      | true => simpa [executedUnless] using Unfolds.ret hfirst rfl hret
      | false =>
        simp only [Bool.false_eq_true, if_false]
        have hothers := ih (haccount.depth.trans hdepth) (hm.trace haccount.trace)
        exact .next hfirst haccount.trace rfl hret hothers

/-- What the events of an action are taken from, when it is one that starts no body. -/
theorem unfolds_performed {step : Machine σ → Outcome × Machine σ} {deeper : Option (Runner σ)}
    (hm : m.Stepless) {a : Action} (comes : ComesTo i m a)
    (hbody : ∀ f args body, a = .invoke f args → f.body ≠ .recorded body)
    (succeeds : (perform step (deeper.map Runner.run) i m a).1 ≠ .failed) :
    Unfolds (.instruction i) m (.begin i :: performEvents deeper i m a)
      (perform step (deeper.map Runner.run) i m a).1
      (perform step (deeper.map Runner.run) i m a).2 := by
  have hevents : performEvents deeper i m a = performEvents none i m a := by
    cases a with
    | invoke f args =>
      rw [performEvents, performEvents, invokeEvents, invokeEvents]
      cases hkind : f.body with
      | recorded body => exact absurd hkind (hbody f args body rfl)
      | builtin | host => rfl
    | _ => rfl
  rw [hevents]
  exact .performed comes (fun _ _ ↦ perform_alike hm comes.allowed hbody _ _ _ _) succeeds

theorem unfolds_record {step : Machine σ → Outcome × Machine σ} {deeper : Option (Runner σ)}
    (hm : m.Stepless) {name : String} {argNames : List String}
    (comes : ComesTo i m (.record name argNames)) :
    Unfolds (.instruction i) m (.begin i :: performEvents deeper i m (.record name argNames))
      (perform step (deeper.map Runner.run) i m (.record name argNames)).1
      (perform step (deeper.map Runner.run) i m (.record name argNames)).2 := by
  cases hbody : recordBody m.unread [] with
  | complete body rest => exact unfolds_performed hm comes (by simp) (by simp [perform, hbody])
  | nested rest =>
    simp only [performEvents, perform, hbody]
    exact .nested comes hbody

/-- A runner suits a machine when its events are a full account of everything one call deeper, and
those of derivations. -/
def Suits (m : Machine σ) : Option (Runner σ) → Prop
  | none => maxDepth ≤ m.depth
  | some runner =>
    m.depth < maxDepth ∧
      ∀ (j : Instruction) (m' : Machine σ), m'.depth = m.depth + 1 → m'.Stepless →
        Unfolds (.instruction j) m' (runner.events j m') (runner.run j m').1 (runner.run j m').2 ∧
          Accounts m' (runner.events j m') (runner.run j m').1.error? (runner.run j m').2

/-- A call runs a routine, has a derivation for its body, or overflows. -/
theorem unfolds_invoke {step : Machine σ → Outcome × Machine σ} {deeper : Option (Runner σ)}
    (hdeeper : Suits m deeper) (hm : m.Stepless) {f : Function} {args : List Number}
    (comes : ComesTo i m (.invoke f args)) :
    Unfolds (.instruction i) m (.begin i :: performEvents deeper i m (.invoke f args))
      (perform step (deeper.map Runner.run) i m (.invoke f args)).1
      (perform step (deeper.map Runner.run) i m (.invoke f args)).2 := by
  cases hbody : f.body with
  | builtin routine =>
    refine unfolds_performed hm comes ?_ (by simp [perform, invoke, hbody])
    rintro f args body ⟨⟩
    simp [hbody]
  | host routine =>
    refine unfolds_performed hm comes ?_ (by simp [perform, invoke, hbody])
    rintro f args body ⟨⟩
    simp [hbody]
  | recorded body =>
    simp only [performEvents, invokeEvents, perform, invoke, hbody]
    cases deeper with
    | none => exact .tooDeep comes hbody hdeeper
    | some runner =>
      obtain ⟨hlt, hrunner⟩ := hdeeper
      have hrun := unfolds_runBody hrunner i body (m := { m with depth := m.depth + 1 }) rfl hm
      have hcall := Unfolds.call comes hbody hlt hrun
      rw [executedUnless_snd] at hcall
      simp only [Option.map_some]
      rcases hresult : runBody runner.run body { m with depth := m.depth + 1 } with ⟨_ | _, m₁⟩
      · rw [hresult] at hcall
        exact hcall
      · rw [hresult] at hcall
        exact hcall

/-- Every way to take up an instruction is one of the rules. -/
theorem unfolds_interpretWith {step : Machine σ → Outcome × Machine σ}
    (deeper : Option (Runner σ)) (hdeeper : Suits m deeper) (hm : m.Stepless) :
    Unfolds (.instruction i) m (eventsWith deeper i m)
      (interpretWith step (deeper.map Runner.run) i m).1
      (interpretWith step (deeper.map Runner.run) i m).2 := by
  cases heof : i.isEof with
  | true =>
    rw [interpretWith_eof heof, eventsWith_eof heof]
    exact .eof heof
  | false =>
    cases hs : Statement.ofInstruction i with
    | error rejection =>
      rw [interpretWith_rejected heof hs, eventsWith_rejected heof hs]
      exact .rejected heof hs
    | ok s =>
      cases hplan : m.plan s with
      | error fault =>
        rw [interpretWith_refused heof hs hplan, eventsWith_refused heof hs hplan]
        exact .refused heof hs hplan
      | ok a =>
        have comes : ComesTo i m a := ⟨heof, s, hs, hplan⟩
        rw [interpretWith_performed heof hs hplan, eventsWith_performed heof hs hplan]
        cases a with
        | record name argNames => exact unfolds_record hm comes
        | invoke f args => exact unfolds_invoke hdeeper hm comes
        | draw commands =>
          refine unfolds_performed hm comes (by simp) ?_
          rcases hdraw : drawAll commands m with ⟨_ | _, m₁⟩ <;>
            simp [perform, hdraw, executedUnless]
        | setVariable =>
          have hset := perform_setVariable (plans_of_plan hplan).allowed step
          exact unfolds_performed hm comes (by simp) (by simp [hset])
        | skip | setRegister | removeVariable | log =>
          exact unfolds_performed hm comes (by simp) (by simp [perform])

/-- The events that the machine lists are those of a derivation. The induction is on the room that
is left for calls, which the depth determines. -/
theorem unfolds_interpretWithin (step : Machine σ → Outcome × Machine σ) (room : Nat)
    (hroom : room = maxDepth - m.depth) (hm : m.Stepless) :
    Unfolds (.instruction i) m (eventsWithin step room i m) (interpretWithin step room i m).1
      (interpretWithin step room i m).2 := by
  induction room generalizing i m with
  | zero =>
    have hsuits : Suits m none := by
      unfold Suits
      omega
    exact unfolds_interpretWith none hsuits hm
  | succ room ih =>
    have hsuits : Suits m (some ⟨interpretWithin step room, eventsWithin step room⟩) := by
      refine ⟨by omega, fun j m' hdepth hm' ↦ ?_⟩
      exact ⟨ih (by omega) hm', accounts_interpretWithin step room (by omega) hm'⟩
    exact unfolds_interpretWith _ hsuits hm

end PenMachine.Machine
