import PenMachine.Proofs.Failures

/-!
# One instruction after another

The events of a run give a full account of it as long as no routine takes steps of the program. The
account given here tells less and covers every machine. It lists the instructions that are taken up,
at top level, inside recorded functions and in the steps that a routine takes, each with the machine
as it is then.

What an instruction does by itself (`Attempt.effect`) is done before anything that it calls is taken
up, and when a call is over it restores the depth and sets `$ret`. So the last comparison and the
random numbers stay from one instruction to the next what the first has made of them (`Threads`).
This goes part by part through the interpreter, and then through all that the embedding program may
have a machine do (`Course.threads`).
-/

namespace PenMachine

variable {σ : Type}

/-- Machines with the same last comparison and the same random numbers. -/
structure Steady (m m' : Machine σ) : Prop where
  cmp : m'.registers.get .cmp = m.registers.get .cmp
  random : m'.random = m.random

namespace Steady

variable {m m₁ m' : Machine σ}

theorem of_agree (h : Agree m m') : Steady m m' := ⟨by rw [h.registers], h.random⟩

theorem refl (m : Machine σ) : Steady m m := ⟨rfl, rfl⟩

theorem symm (h : Steady m m') : Steady m' m := ⟨h.cmp.symm, h.random.symm⟩

theorem trans (h₁ : Steady m m₁) (h₂ : Steady m₁ m') : Steady m m' :=
  ⟨h₂.cmp.trans h₁.cmp, h₂.random.trans h₁.random⟩

/-- No other register is read off by conditions or by the random numbers. -/
theorem setRegister (m : Machine σ) {r : Register} (hr : r ≠ .cmp) (value : Number) :
    Steady m (m.setRegister r value) where
  cmp := by rw [Machine.setRegister, Registers.get_set, if_neg hr]
  random := rfl

theorem updateSize [Surface σ] (m : Machine σ) : Steady m m.updateSize where
  cmp := by simp [Machine.updateSize, Registers.get_set]
  random := rfl

end Steady

/-- The machine after what an instruction does by itself: no routine gets a step of the program from
it, and no recorded function any room. -/
def Attempt.effect [Surface σ] (a : Attempt σ) : Machine σ :=
  (Machine.interpretWith (fun m ↦ (.eof, m)) none a.instruction a.machine).2

/-- Whether comparison and random numbers change from one machine to another only by what these
attempts do by themselves. -/
def Threads [Surface σ] : List (Attempt σ) → Machine σ → Machine σ → Prop
  | [], m, m' => Steady m m'
  | a :: rest, m, m' => Steady m a.machine ∧ Threads rest a.effect m'

namespace Threads

variable [Surface σ] {taken before after : List (Attempt σ)} {m m₁ m' : Machine σ}

theorem nil (m : Machine σ) : Threads [] m m := Steady.refl m

theorem of_steady (h : Steady m m₁) (h' : Threads taken m₁ m') : Threads taken m m' := by
  cases taken with
  | nil => exact h.trans h'
  | cons a rest => exact ⟨h.trans h'.1, h'.2⟩

theorem to_steady (h : Threads taken m m₁) (h' : Steady m₁ m') : Threads taken m m' := by
  induction taken generalizing m with
  | nil => exact Steady.trans h h'
  | cons a rest ih => exact ⟨h.1, ih h.2⟩

theorem append (h : Threads before m m₁) (h' : Threads after m₁ m') :
    Threads (before ++ after) m m' := by
  induction before generalizing m with
  | nil => exact of_steady h h'
  | cons a rest ih => exact ⟨h.1, ih h.2⟩

theorem split (h : Threads (before ++ after) m m') :
    ∃ m₁, Threads before m m₁ ∧ Threads after m₁ m' := by
  induction before generalizing m with
  | nil => exact ⟨m, .refl m, h⟩
  | cons a rest ih =>
    obtain ⟨m₁, hrest, hafter⟩ := ih h.2
    exact ⟨m₁, ⟨h.1, hrest⟩, hafter⟩

/-- What the attempts keep, and what does not depend on the rest, holds at the end. -/
theorem invariant {P : Machine σ → Prop} (hsteady : ∀ m m', Steady m m' → P m → P m')
    (heffect : ∀ a ∈ taken, P a.machine → P a.effect) (h : Threads taken m m') (hm : P m) :
    P m' := by
  induction taken generalizing m with
  | nil => exact hsteady m m' h hm
  | cons a rest ih =>
    have ha := heffect a (by simp) (hsteady m a.machine h.1 hm)
    exact ih (fun b hb ↦ heffect b (List.mem_cons_of_mem a hb)) h.2 ha

end Threads

/-- What ends the program is no statement. -/
theorem Statement.ofInstruction_of_isEof {i : Instruction} (h : i.isEof = true) :
    ofInstruction i = .error (.unknownOperation i.operation) := by
  rw [ofInstruction, beq_iff_eq.1 h]
  rfl

namespace Machine

/-- A way of running instructions, together with the instructions that are taken up. -/
structure Tracked (σ : Type) where
  run : Instruction → Machine σ → Outcome × Machine σ
  taken : Instruction → Machine σ → List (Attempt σ)

/-- The function that an instruction comes to calling. -/
def invoked? (i : Instruction) (m : Machine σ) : Option (Function × List Number) :=
  if i.isEof then none
  else match Statement.ofInstruction i with
    | .error _ => none
    | .ok s =>
      match m.plan s with
      | .ok (.invoke f args) => some (f, args)
      | _ => none

/-- The function that an instruction calls is the one that its plan invokes. -/
theorem invoked?_eq_some_iff {i : Instruction} {m : Machine σ} {f : Function}
    {args : List Number} : invoked? i m = some (f, args) ↔ ComesTo i m (.invoke f args) := by
  unfold invoked? ComesTo
  cases i.isEof with
  | true => simp
  | false =>
    cases Statement.ofInstruction i with
    | error rejection => simp
    | ok s =>
      cases hplan : m.plan s with
      | error fault => simp [hplan]
      | ok action => cases action <;> simp [hplan]

section Taken

variable (step : Machine σ → Outcome × Machine σ) (stepTaken : Machine σ → List (Attempt σ))

/-- What a routine of the embedding program takes up in its steps. -/
def hostTaken : HostRoutine → Machine σ → List (Attempt σ)
  | .done _, _ => []
  | .step resume, m => stepTaken m ++ hostTaken (resume (step m).1) (step m).2

def bodyTaken (tracked : Tracked σ) : List Instruction → Machine σ → List (Attempt σ)
  | [], _ => []
  | i :: rest, m =>
    tracked.taken i m ++
      match tracked.run i m with
      | (.fatal _, _) => []
      | (_, m) => if i.is "ret" then [] else bodyTaken tracked rest m

def invokeTaken (deeper : Option (Tracked σ)) (f : Function) (args : List Number)
    (m : Machine σ) : List (Attempt σ) :=
  match f.body with
  | .builtin _ => []
  | .host routine => hostTaken step stepTaken (routine args) m
  | .recorded body =>
    match deeper with
    | none => []
    | some tracked => bodyTaken tracked body { m with depth := m.depth + 1 }

/-- An instruction is taken up itself, and then what it calls. -/
def takenWith (deeper : Option (Tracked σ)) (i : Instruction) (m : Machine σ) :
    List (Attempt σ) :=
  ⟨i, m⟩ ::
    match invoked? i m with
    | none => []
    | some (f, args) => invokeTaken step stepTaken deeper f args m

def takenWithin [Surface σ] : Nat → Instruction → Machine σ → List (Attempt σ)
  | 0 => takenWith step stepTaken none
  | room + 1 => takenWith step stepTaken (some ⟨interpretWithin step room, takenWithin room⟩)

end Taken

/-- An instruction that calls nothing but a routine of the machine's own is alone. -/
theorem takenWithin_eq_singleton [Surface σ] {step : Machine σ → Outcome × Machine σ}
    {stepTaken : Machine σ → List (Attempt σ)} {i : Instruction} {m : Machine σ}
    (h : ∀ f args, invoked? i m = some (f, args) → ∃ routine, f.body = .builtin routine)
    (room : Nat) : takenWithin step stepTaken room i m = [⟨i, m⟩] := by
  have halone : ∀ deeper, takenWith step stepTaken deeper i m = [⟨i, m⟩] := by
    intro deeper
    rw [takenWith]
    rcases hcalls : invoked? i m with _ | ⟨f, args⟩
    · rfl
    · obtain ⟨routine, hbody⟩ := h f args hcalls
      simp only [invokeTaken, hbody]
  cases room with
  | zero => exact halone _
  | succ room => exact halone _

section Requests

variable [Surface σ]

def stepTakenWithin : List Char → Machine σ → List (Attempt σ)
  | [], _ => []
  | _ :: shorter, m =>
    takenWithin (stepWithin shorter) (stepTakenWithin shorter) (maxDepth - m.depth)
      (Source.next m.unread).1 { m with unread := (Source.next m.unread).2 }

def stepTaken (m : Machine σ) : List (Attempt σ) := stepTakenWithin m.unread m

/-- What is taken up with an instruction from outside the program. -/
def taken (i : Instruction) (m : Machine σ) : List (Attempt σ) :=
  takenWithin (stepWithin m.unread) (stepTakenWithin m.unread) (maxDepth - m.depth) i m

def runTakenWithin : Nat → Machine σ → List (Attempt σ)
  | 0, _ => []
  | length + 1, m =>
    m.stepTaken ++
      match m.step with
      | (.eof, _) | (.fatal _, _) => []
      | (_, m) => runTakenWithin length m

end Requests

section Parts

variable {step : Machine σ → Outcome × Machine σ} {stepTaken : Machine σ → List (Attempt σ)}

theorem runHost_idle (routine : HostRoutine) (m : Machine σ) :
    (runHost (fun m ↦ (.eof, m)) routine m).2 = m := by
  induction routine with
  | done value => rfl
  | step resume ih => exact ih .eof

variable [Surface σ]

/-- The steps of a routine are linked one to the next, and it does nothing else. -/
theorem threads_runHost (hstep : ∀ m, Threads (stepTaken m) m (step m).2) (routine : HostRoutine)
    (m : Machine σ) :
    Threads (hostTaken step stepTaken routine m) m (runHost step routine m).2 := by
  induction routine generalizing m with
  | done value => exact Threads.nil m
  | step resume ih => exact (hstep m).append (ih (step m).1 (step m).2)

theorem threads_runBody {tracked : Tracked σ}
    (h : ∀ i m, Threads (tracked.taken i m) m (tracked.run i m).2) (body : List Instruction)
    (m : Machine σ) : Threads (bodyTaken tracked body m) m (runBody tracked.run body m).2 := by
  induction body generalizing m with
  | nil => exact Threads.nil m
  | cons i rest ih =>
    have hi := h i m
    rw [bodyTaken, runBody]
    rcases hrun : tracked.run i m with ⟨outcome, m₁⟩
    rw [hrun] at hi
    cases outcome with
    | fatal error => simpa using hi
    | eof | executed | failed =>
      by_cases hret : i.is "ret"
      · simpa [hret] using hi
      · simpa [hret] using hi.append (ih m₁)

/-- What a call takes up leads from the machine after its own effect to the one in the end. -/
theorem threads_invoke (hstep : ∀ m, Threads (stepTaken m) m (step m).2)
    {deeper : Option (Tracked σ)}
    (hdeeper : ∀ tracked ∈ deeper, ∀ i m, Threads (tracked.taken i m) m (tracked.run i m).2)
    (i : Instruction) (f : Function) (args : List Number) (m : Machine σ) :
    Threads (invokeTaken step stepTaken deeper f args m)
      (invoke (fun m ↦ (.eof, m)) none i f args m).2
      (invoke step (deeper.map Tracked.run) i f args m).2 := by
  unfold invokeTaken invoke
  cases f.body with
  | builtin routine => exact Threads.nil _
  | host routine =>
    have hbefore : Steady (((runHost (fun m ↦ (.eof, m)) (routine args) m).2).setRegister .ret
        (runHost (fun m ↦ (.eof, m)) (routine args) m).1) m := by
      rw [runHost_idle]
      exact (Steady.setRegister m (by decide) _).symm
    have hrun := threads_runHost hstep (routine args) m
    exact (hrun.to_steady (.setRegister _ (by decide) _)).of_steady hbefore
  | recorded body =>
    have hbefore : Steady (m.refuse i.operation (.callDepth f.name))
        { m with depth := m.depth + 1 } :=
      .of_agree (Agree.refl m).elsewhere
    cases deeper with
    | none => exact Threads.nil _
    | some tracked =>
      have hbody := threads_runBody (hdeeper tracked rfl) body { m with depth := m.depth + 1 }
      simp only [Option.map_some, executedUnless_snd]
      exact (hbody.to_steady (.of_agree (Agree.refl _).elsewhere)).of_steady hbefore

/-- An instruction does its own part first, and what it calls goes on from there. -/
theorem threads_interpretWith (hstep : ∀ m, Threads (stepTaken m) m (step m).2)
    (deeper : Option (Tracked σ))
    (hdeeper : ∀ tracked ∈ deeper, ∀ i m, Threads (tracked.taken i m) m (tracked.run i m).2)
    (i : Instruction) (m : Machine σ) :
    Threads (takenWith step stepTaken deeper i m) m
      (interpretWith step (deeper.map Tracked.run) i m).2 := by
  refine ⟨.refl m, ?_⟩
  cases heof : i.isEof with
  | true =>
    rw [Attempt.effect, interpretWith_eof heof, interpretWith_eof heof]
    simpa [invoked?, heof] using Threads.nil m
  | false =>
    cases hs : Statement.ofInstruction i with
    | error rejection =>
      rw [Attempt.effect, interpretWith_rejected heof hs, interpretWith_rejected heof hs]
      simpa [invoked?, heof, hs] using Threads.nil (m.say .warn rejection.text)
    | ok s =>
      cases hplan : m.plan s with
      | error fault =>
        rw [Attempt.effect, interpretWith_refused heof hs hplan,
          interpretWith_refused heof hs hplan]
        simpa [invoked?, heof, hs, hplan] using Threads.nil (m.refuse i.operation fault)
      | ok a =>
        rw [Attempt.effect, interpretWith_performed heof hs hplan,
          interpretWith_performed heof hs hplan]
        cases a with
        | invoke f args =>
          rw [invoked?_eq_some_iff.2 ⟨heof, s, hs, hplan⟩]
          exact threads_invoke hstep hdeeper i f args m
        | _ =>
          have hnone : invoked? i m = none := by
            simp [invoked?, heof, hs, hplan]
          rw [hnone]
          exact Threads.nil _

theorem threads_interpretWithin (hstep : ∀ m, Threads (stepTaken m) m (step m).2) (room : Nat)
    (i : Instruction) (m : Machine σ) :
    Threads (takenWithin step stepTaken room i m) m (interpretWithin step room i m).2 := by
  induction room generalizing i m with
  | zero => exact threads_interpretWith hstep none (by simp) i m
  | succ room ih =>
    refine threads_interpretWith hstep
      (some ⟨interpretWithin step room, takenWithin step stepTaken room⟩) ?_ i m
    rintro tracked ⟨⟩
    exact ih

end Parts

/-! ## What an attempt does by itself -/

section Effect

/-- The three kinds of attempts: a comparison, a call of the routine that draws a random number, and
all others. -/
inductive Effect (a : Attempt σ) (m' : Machine σ) : Prop where
  | compare {left right : String}
    (stated : Statement.ofInstruction a.instruction = .ok (.compare left right))
    (eq : m' = a.machine.setRegister .cmp
      (Flags.compare (a.machine.valueOf left) (a.machine.valueOf right)).toNumber)
  | draw {f : Function} {args : List Number}
    (calls : invoked? a.instruction a.machine = some (f, args)) (body : f.body = .builtin .rand)
    (eq : m' = a.machine.drawRandom.2.setRegister .ret a.machine.drawRandom.1)
  | other (silent : ∀ left right,
      Statement.ofInstruction a.instruction ≠ .ok (.compare left right))
    (still : ∀ f args, invoked? a.instruction a.machine = some (f, args) →
      f.body ≠ .builtin .rand)
    (steady : Steady a.machine m')

/-- Only a comparison sets `$cmp`. -/
theorem ne_cmp_of_plan {m : Machine σ} {s : Statement} {r : Register} {value : Number}
    (h : m.plan s = .ok (.setRegister r value)) (hs : ∀ left right, s ≠ .compare left right) :
    r ≠ .cmp := by
  cases plans_of_plan h with
  | ret => decide
  | @operate op => cases op <;> decide
  | compare left right => exact absurd rfl (hs left right)
  | callWhen _ called => cases called
  | setWhen _ set => cases set

/-- Without steps and without room, a call changes the random numbers only if it draws one, and the
comparison never. -/
theorem steady_invoke (i : Instruction) {f : Function} (args : List Number) (m : Machine σ)
    (hf : f.body ≠ .builtin .rand) :
    Steady m (invoke (fun m ↦ (.eof, m)) none i f args m).2 := by
  rw [invoke]
  cases hbody : f.body with
  | builtin routine =>
    cases routine with
    | rand => exact absurd hbody hf
    | probe | print =>
      exact Steady.trans (.of_agree (Agree.refl m).elsewhere) (.setRegister _ (by decide) _)
    | log | sin | cos | tan | sqrt => exact .setRegister m (by decide) _
  | host routine =>
    have hidle := runHost_idle (routine args) m
    simp only [hidle]
    exact .setRegister m (by decide) _
  | recorded body => exact .of_agree (Agree.refl m).elsewhere

variable [Surface σ]

theorem steady_perform (i : Instruction) (m : Machine σ) {action : Action}
    (hregister : ∀ r value, action = .setRegister r value → r ≠ .cmp)
    (hinvoke : ∀ f args, action = .invoke f args → f.body ≠ .builtin .rand) :
    Steady m (perform (fun m ↦ (.eof, m)) none i m action).2 := by
  cases action with
  | skip | removeVariable => exact ⟨rfl, rfl⟩
  | setVariable name value =>
    rw [perform, executedUnless_snd]
    exact ⟨rfl, rfl⟩
  | setRegister r value => exact .setRegister m (hregister r value rfl) value
  | log lines =>
    rw [perform, foldl_say]
    exact ⟨rfl, rfl⟩
  | record name argNames =>
    rw [perform]
    cases recordBody m.unread [] <;> exact ⟨rfl, rfl⟩
  | invoke f args => exact steady_invoke i args m (hinvoke f args rfl)
  | draw commands =>
    rw [perform, executedUnless_snd, drawAll_eq]
    exact ⟨rfl, rfl⟩

/-- Every action is of one of the three kinds. -/
theorem effect_performed {i : Instruction} {m : Machine σ} {s : Statement} {action : Action}
    (heof : i.isEof = false) (hs : Statement.ofInstruction i = .ok s)
    (hplan : m.plan s = .ok action) :
    Effect ⟨i, m⟩ (perform (fun m ↦ (.eof, m)) none i m action).2 := by
  by_cases hcompare : ∃ left right, s = .compare left right
  · obtain ⟨left, right, rfl⟩ := hcompare
    cases hplan
    exact .compare hs rfl
  · have hsilent : ∀ left right, s ≠ .compare left right := by
      rintro left right rfl
      exact hcompare ⟨left, right, rfl⟩
    by_cases hdraw : ∃ f args, action = .invoke f args ∧ f.body = .builtin .rand
    · obtain ⟨f, args, rfl, hbody⟩ := hdraw
      have hcalls : invoked? i m = some (f, args) :=
        invoked?_eq_some_iff.2 ⟨heof, s, hs, hplan⟩
      exact .draw hcalls hbody (by simp [perform, invoke, hbody, runBuiltin])
    · have hinvoke : ∀ f args, action = .invoke f args → f.body ≠ .builtin .rand :=
        fun f args haction hbody ↦ hdraw ⟨f, args, haction, hbody⟩
      refine .other (by simpa [hs] using hsilent) ?_ (steady_perform i m ?_ hinvoke)
      · intro f args hcalls
        obtain ⟨-, s', hs', hplan'⟩ := invoked?_eq_some_iff.1 hcalls
        obtain rfl : s' = s := by simpa [hs] using hs'.symm
        exact hinvoke f args (by simpa [hplan] using hplan')
      · rintro r value rfl
        exact ne_cmp_of_plan hplan hsilent

/-- What any attempt does by itself. -/
theorem effect_cases (a : Attempt σ) : Effect a a.effect := by
  obtain ⟨i, m⟩ := a
  rw [Attempt.effect]
  cases heof : i.isEof with
  | true =>
    have hnone := Statement.ofInstruction_of_isEof heof
    rw [interpretWith_eof heof]
    exact .other (by simp [hnone]) (by simp [invoked?, heof]) (.refl m)
  | false =>
    cases hs : Statement.ofInstruction i with
    | error rejection =>
      rw [interpretWith_rejected heof hs]
      exact .other (by simp [hs]) (by simp [invoked?, heof, hs]) ⟨rfl, rfl⟩
    | ok s =>
      cases hplan : m.plan s with
      | error fault =>
        have hsilent : ∀ left right, s ≠ .compare left right := by
          rintro left right rfl
          cases hplan
        rw [interpretWith_refused heof hs hplan]
        exact .other (by simpa [hs] using hsilent) (by simp [invoked?, heof, hs, hplan]) ⟨rfl, rfl⟩
      | ok action =>
        rw [interpretWith_performed heof hs hplan]
        exact effect_performed heof hs hplan

end Effect

section Runs

variable [Surface σ]

theorem threads_stepWithin (text : List Char) (m : Machine σ) :
    Threads (stepTakenWithin text m) m (stepWithin text m).2 := by
  induction text generalizing m with
  | nil => exact Threads.nil m
  | cons c shorter ih =>
    -- The steps that routines take from here have the shorter text as their bound.
    have hread : Steady m { m with unread := (Source.next m.unread).2 } :=
      .of_agree (Agree.refl m).elsewhere
    exact (threads_interpretWithin ih _ _ _).of_steady hread

theorem threads_step (m : Machine σ) : Threads m.stepTaken m m.step.2 :=
  threads_stepWithin m.unread m

theorem threads_interpret (i : Instruction) (m : Machine σ) :
    Threads (taken i m) m (interpret i m).2 :=
  threads_interpretWithin (threads_stepWithin m.unread) _ i m

theorem threads_runWithin (length count : Nat) (m : Machine σ) :
    Threads (runTakenWithin length m) m (runWithin length count m).2 := by
  induction length generalizing m count with
  | zero => exact Threads.nil m
  | succ length ih =>
    have hstep := threads_step m
    rw [runTakenWithin, runWithin]
    rcases hrun : m.step with ⟨outcome, m₁⟩
    rw [hrun] at hstep
    cases outcome with
    | eof | fatal => simpa using hstep
    | executed | failed => exact hstep.append (ih (count + 1) m₁)

end Runs

end Machine

namespace Request

variable [Surface σ]

/-- The instructions that are taken up while the request is served. -/
def taken : Request → Machine σ → List (Attempt σ)
  | .reset _, _ => []
  | .step, m => m.stepTaken
  | .run, m => Machine.runTakenWithin m.unread.length m
  | .interpret i, m => Machine.taken i m

/-- Whatever is asked of a machine, comparison and random numbers change by the attempts alone. -/
theorem threads_taken (r : Request) (m : Machine σ) : Threads (r.taken m) m (r.serve m) := by
  cases r with
  | reset source => exact Steady.of_agree (Agree.refl m).elsewhere
  | step => exact Machine.threads_step m
  | run => exact Machine.threads_runWithin _ 0 m
  | interpret i => exact Machine.threads_interpret i m

end Request

/-- What the embedding program may have a machine do, with the instructions that are taken up on the
way. Between requests it may also measure the surface, read off messages, do to the surface what it
likes, and add functions of its own. -/
inductive Course [Surface σ] : Machine σ → List (Attempt σ) → Machine σ → Prop where
  | start (m : Machine σ) : Course m [] m
  | serve {m m' : Machine σ} {taken : List (Attempt σ)} (h : Course m taken m') (r : Request) :
    Course m (taken ++ r.taken m') (r.serve m')
  | updateSize {m m' : Machine σ} {taken : List (Attempt σ)} (h : Course m taken m') :
    Course m taken m'.updateSize
  | takeMessages {m m' : Machine σ} {taken : List (Attempt σ)} (h : Course m taken m') :
    Course m taken m'.takeMessages.2
  | exchange {m m' : Machine σ} {taken : List (Attempt σ)} (h : Course m taken m') (surface : σ) :
    Course m taken { m' with surface }
  | define {m m' : Machine σ} {taken : List (Attempt σ)} (h : Course m taken m') (f : Function) :
    Course m taken (m'.define f)

theorem Course.threads [Surface σ] {m m' : Machine σ} {taken : List (Attempt σ)}
    (h : Course m taken m') : Threads taken m m' := by
  induction h with
  | start => exact .nil _
  | serve _ r ih => exact ih.append (r.threads_taken _)
  | updateSize _ ih => exact ih.to_steady (.updateSize _)
  | takeMessages _ ih | exchange _ _ ih | define _ _ ih => exact ih.to_steady ⟨rfl, rfl⟩

end PenMachine
