import PenMachine.Proofs.Failures
import PenMachine.Proofs.Inlining

/-!
# Recursion up to the limit

A function that calls itself unconditionally runs until the limit stops it. Its instructions before
the inner call run once for each call that there is room for, then a single call is refused, and
then the instructions behind the inner call run as many times on the way back
(`Machine.recursion_unrolls`). An error of the surface ends all of it at once.

The instructions around the inner call neither call nor record nor return, so they do the same at
every depth (`Machine.interpretWith_straight`). The rest is an induction on the room for calls.
-/

namespace PenMachine

variable {σ : Type}

def Operation.isCall : Operation → Bool
  | .call | .callWhen _ => true
  | _ => false

theorem Instruction.calls_iff {i : Instruction} :
    i.Calls ↔ i.operation?.any Operation.isCall = true := by
  unfold Calls
  rcases i.operation? with _ | operation
  · simp
  · cases operation <;> simp [Operation.isCall]

instance (i : Instruction) : Decidable i.Calls := decidable_of_iff _ Instruction.calls_iff.symm

/-- Whether an instruction is carried out by itself: it records no function, leaves none and calls
none. -/
def Instruction.IsStraight (i : Instruction) : Prop :=
  i.is "func" = false ∧ i.is "ret" = false ∧ ¬ i.Calls

instance (i : Instruction) : Decidable i.IsStraight := by
  unfold Instruction.IsStraight
  infer_instance

/-- An instruction has one name at most, up to case. -/
theorem Instruction.is_false_of_is {i : Instruction} {name other : String}
    (h : i.is name = true) (hne : Text.sameIgnoringCase name other = false) :
    i.is other = false := by
  rw [is, Text.sameIgnoringCase, beq_iff_eq] at h
  rw [is, Text.sameIgnoringCase, h]
  exact hne

namespace Machine

/-- What a run came to, with the machine at another depth. -/
def atDepth {α : Type} (depth : Nat) (r : α × Machine σ) : α × Machine σ :=
  (r.1, { r.2 with depth })

theorem atDepth_self {α : Type} {m : Machine σ} {r : α × Machine σ} (h : r.2.depth = m.depth) :
    atDepth m.depth r = r := by
  rw [atDepth, ← h]

theorem executedUnless_atDepth (i : Instruction) (depth : Nat) (r : Option Error × Machine σ) :
    executedUnless i (atDepth depth r) = atDepth depth (executedUnless i r) := by
  obtain ⟨_ | error, m⟩ := r <;> rfl

section Straight

variable [Surface σ]

/-- What neither calls nor records makes no difference between depths, and keeps the functions. -/
theorem perform_straight {a : Action} (hinvoke : ∀ f args, a ≠ .invoke f args)
    (hrecord : ∀ name argNames, a ≠ .record name argNames)
    (step step' : Machine σ → Outcome × Machine σ)
    (deeper deeper' : Option (Instruction → Machine σ → Outcome × Machine σ)) (i : Instruction)
    (m : Machine σ) (depth : Nat) :
    perform step deeper i { m with depth } a = atDepth depth (perform step' deeper' i m a) ∧
      (perform step' deeper' i m a).2.functions = m.functions := by
  cases a with
  | skip | setRegister | removeVariable => exact ⟨rfl, rfl⟩
  | setVariable name value =>
    rw [perform, perform, ← executedUnless_atDepth, executedUnless_snd]
    exact ⟨rfl, rfl⟩
  | log lines =>
    rw [perform, perform, foldl_say, foldl_say]
    exact ⟨rfl, rfl⟩
  | record name argNames => exact absurd rfl (hrecord name argNames)
  | invoke f args => exact absurd rfl (hinvoke f args)
  | draw commands =>
    have hdepth : drawAll commands { m with depth } = atDepth depth (drawAll commands m) := by
      rw [drawAll_eq, drawAll_eq]
      rfl
    rw [perform, perform, hdepth, executedUnless_atDepth, executedUnless_snd, drawAll_eq]
    exact ⟨rfl, rfl⟩

section Instruction

variable {j : Instruction} (hj : j.IsStraight) (m : Machine σ)

include hj

/-- An instruction that is carried out by itself does the same at every depth. -/
theorem interpretWith_straight (step : Machine σ → Outcome × Machine σ)
    (deeper : Option (Instruction → Machine σ → Outcome × Machine σ)) (depth : Nat) :
    interpretWith step deeper j { m with depth } = atDepth depth (interpret j m) ∧
      (interpret j m).2.functions = m.functions := by
  obtain ⟨deeper', hinterpret⟩ := exists_interpret j m
  rw [hinterpret]
  cases heof : j.isEof with
  | true =>
    rw [interpretWith_eof heof, interpretWith_eof heof]
    exact ⟨rfl, rfl⟩
  | false =>
    cases hs : Statement.ofInstruction j with
    | error rejection =>
      rw [interpretWith_rejected heof hs, interpretWith_rejected heof hs]
      exact ⟨rfl, rfl⟩
    | ok s =>
      have hplan' : ({ m with depth } : Machine σ).plan s = m.plan s :=
        plan_congr (Agree.refl m).elsewhere s
      cases hplan : m.plan s with
      | error fault =>
        rw [interpretWith_refused heof hs hplan, interpretWith_refused heof hs (hplan'.trans hplan)]
        exact ⟨rfl, rfl⟩
      | ok a =>
        rw [interpretWith_performed heof hs hplan,
          interpretWith_performed heof hs (hplan'.trans hplan)]
        apply perform_straight
        · rintro f args rfl
          exact hj.2.2 (calls_of_comesTo ⟨heof, s, hs, hplan⟩)
        · rintro name argNames rfl
          exact plan_ne_record hs hj.1 name argNames hplan

theorem functions_interpret_straight : (interpret j m).2.functions = m.functions :=
  (interpretWith_straight hj m (stepWithin []) none 0).2

theorem depth_interpret_straight : (interpret j m).2.depth = m.depth := by
  obtain ⟨deeper, hinterpret⟩ := exists_interpret j m
  have hself : interpret j m = atDepth m.depth (interpret j m) :=
    hinterpret.trans (interpretWith_straight hj m (stepWithin m.unread) deeper m.depth).1
  rw [hself]
  rfl

end Instruction

end Straight

/-- What two runs come to, when the second takes place if the first ended without an error. -/
def andThen (r : Option Error × Machine σ) (next : Machine σ → Option Error × Machine σ) :
    Option Error × Machine σ :=
  match r with
  | (some error, m) => (some error, m)
  | (none, m) => next m

theorem andThen_assoc (r : Option Error × Machine σ)
    (next later : Machine σ → Option Error × Machine σ) :
    andThen (andThen r next) later = andThen r fun m ↦ andThen (next m) later := by
  obtain ⟨_ | error, m⟩ := r <;> rfl

theorem andThen_pure (r : Option Error × Machine σ) : andThen r (fun m ↦ (none, m)) = r := by
  obtain ⟨_ | error, m⟩ := r <;> rfl

/-- Depth can be set before or after what follows. -/
theorem andThen_atDepth {depth : Nat} {next next' : Machine σ → Option Error × Machine σ}
    (h : ∀ m, next' { m with depth } = atDepth depth (next m)) (r : Option Error × Machine σ) :
    andThen (atDepth depth r) next' = atDepth depth (andThen r next) := by
  obtain ⟨_ | error, m⟩ := r
  · exact h m
  · rfl

/-- What is seen of an instruction by those behind it. -/
def halted (r : Outcome × Machine σ) : Option Error × Machine σ := (r.1.error?, r.2)

theorem runBody_cons {perform : Instruction → Machine σ → Outcome × Machine σ} {j : Instruction}
    (h : j.is "ret" = false) (rest : List Instruction) (m : Machine σ) :
    runBody perform (j :: rest) m = andThen (halted (perform j m)) (runBody perform rest) := by
  rw [runBody]
  rcases perform j m with ⟨outcome, m₁⟩
  cases outcome <;> simp [h, halted, andThen, Outcome.error?]

section Sequence

variable [Surface σ]

theorem inSequence_cons (j : Instruction) (rest : List Instruction) (m : Machine σ) :
    inSequence (j :: rest) m = andThen (halted (interpret j m)) (inSequence rest) := by
  rw [inSequence]
  rcases interpret j m with ⟨outcome, m₁⟩
  cases outcome <;> rfl

theorem inSequence_append (first second : List Instruction) (m : Machine σ) :
    inSequence (first ++ second) m = andThen (inSequence first m) (inSequence second) := by
  induction first generalizing m with
  | nil => rfl
  | cons j rest ih =>
    rw [List.cons_append, inSequence_cons, inSequence_cons, andThen_assoc, funext ih]

variable {instructions : List Instruction} (hstraight : ∀ j ∈ instructions, j.IsStraight)

include hstraight

theorem keeps_inSequence (m : Machine σ) :
    (inSequence instructions m).2.functions = m.functions ∧
      (inSequence instructions m).2.depth = m.depth := by
  induction instructions generalizing m with
  | nil => exact ⟨rfl, rfl⟩
  | cons j rest ih =>
    have hj := hstraight j (by simp)
    have hfunctions := functions_interpret_straight hj m
    have hdepth := depth_interpret_straight hj m
    rw [inSequence]
    rcases hrun : interpret j m with ⟨outcome, m₁⟩
    rw [hrun] at hfunctions hdepth
    cases outcome with
    | fatal error => exact ⟨hfunctions, hdepth⟩
    | eof | executed | failed =>
      obtain ⟨hrest, hrest'⟩ := ih (fun j hj ↦ hstraight j (List.mem_cons_of_mem _ hj)) m₁
      exact ⟨hrest.trans hfunctions, hrest'.trans hdepth⟩

/-- In a body such instructions run one after another, as they would at any depth. -/
theorem runBody_straight (step : Machine σ → Outcome × Machine σ) (room : Nat)
    {rest : List Instruction} {next : Machine σ → Option Error × Machine σ} {depth : Nat}
    (m : Machine σ) (hrest : ∀ m₁ : Machine σ, m₁.functions = m.functions →
      runBody (interpretWithin step room) rest { m₁ with depth } = atDepth depth (next m₁)) :
    runBody (interpretWithin step room) (instructions ++ rest) { m with depth } =
      atDepth depth (andThen (inSequence instructions m) next) := by
  obtain ⟨deeper, hwith⟩ := exists_interpretWith step room
  induction instructions generalizing m with
  | nil => exact hrest m rfl
  | cons j more ih =>
    have hj := hstraight j (by simp)
    have hrun : interpretWithin step room j { m with depth } = atDepth depth (interpret j m) := by
      rw [hwith]
      exact (interpretWith_straight hj m step deeper depth).1
    rw [List.cons_append, runBody_cons hj.2.1, hrun, inSequence_cons, andThen_assoc]
    have hfunctions := functions_interpret_straight hj m
    rcases hj' : interpret j m with ⟨outcome, m₁⟩
    rw [hj'] at hfunctions
    have hmore := ih (fun j hj ↦ hstraight j (List.mem_cons_of_mem _ hj)) m₁
      fun m₂ hm₂ ↦ hrest m₂ (hm₂.trans hfunctions)
    cases outcome with
    | fatal error => rfl
    | eof | executed | failed => exact hmore

end Sequence

section Recursion

variable [Surface σ]

/-- Instructions that are repeated, a call that is refused, and others that are repeated as
often. -/
def unrolled (before after : List Instruction) (operation name : String) (n : Nat)
    (m : Machine σ) : Option Error × Machine σ :=
  andThen
    (andThen (inSequence (List.replicate n before).flatten m)
      fun m ↦ (none, m.refuse operation (.callDepth name)))
    (inSequence (List.replicate n after).flatten)

variable {before after : List Instruction} {operation name : String} {m : Machine σ}

/-- One more of each goes around the others. -/
theorem unrolled_succ (n : Nat) : unrolled before after operation name (n + 1) m =
    andThen (andThen (inSequence before m) (unrolled before after operation name n))
      (inSequence after) := by
  have hbefore : (List.replicate (n + 1) before).flatten =
      before ++ (List.replicate n before).flatten := by
    rw [List.replicate_succ, List.flatten_cons]
  have hafter : (List.replicate (n + 1) after).flatten =
      (List.replicate n after).flatten ++ after := by
    rw [List.replicate_succ', List.flatten_append, List.flatten_singleton]
  unfold unrolled
  rw [hbefore, hafter, funext (inSequence_append (List.replicate n after).flatten after)]
  simp only [inSequence_append, andThen_assoc]

theorem mem_flatten_replicate {n : Nat} {j : Instruction}
    (h : j ∈ (List.replicate n before).flatten) : j ∈ before := by
  obtain ⟨instructions, hmem, hj⟩ := List.mem_flatten.1 h
  exact (List.eq_of_mem_replicate hmem) ▸ hj

theorem depth_unrolled (hbefore : ∀ j ∈ before, j.IsStraight) (hafter : ∀ j ∈ after, j.IsStraight)
    (n : Nat) : (unrolled before after operation name n m).2.depth = m.depth := by
  have hfirst := (keeps_inSequence (fun j hj ↦ hbefore j (mem_flatten_replicate (n := n) hj)) m).2
  rw [unrolled]
  rcases hrun : inSequence (List.replicate n before).flatten m with ⟨_ | error, m₁⟩
  · rw [hrun] at hfirst
    have hsecond := (keeps_inSequence (fun j hj ↦ hafter j (mem_flatten_replicate (n := n) hj))
      (m₁.refuse operation (.callDepth name))).2
    exact hsecond.trans hfirst
  · rw [hrun] at hfirst
    exact hfirst

variable {f : Function} {call i : Instruction} (hbefore : ∀ j ∈ before, j.IsStraight)
  (hafter : ∀ j ∈ after, j.IsStraight) (hcall : call.is "call" = true)
  (step : Machine σ → Outcome × Machine σ)

section Body

include hbefore hafter hcall

/-- A body goes around what its inner call comes to. -/
theorem runBody_around {inner : Machine σ → Option Error × Machine σ} {room depth : Nat}
    (hinner : ∀ m₁ : Machine σ, m₁.functions = m.functions →
      halted (interpretWithin step room call { m₁ with depth }) = atDepth depth (inner m₁)) :
    runBody (interpretWithin step room) (before ++ call :: after) { m with depth } =
      atDepth depth (andThen (andThen (inSequence before m) inner) (inSequence after)) := by
  have hret : call.is "ret" = false := Instruction.is_false_of_is hcall (by decide)
  have hback : ∀ m₂ : Machine σ, runBody (interpretWithin step room) after { m₂ with depth } =
      atDepth depth (inSequence after m₂) := by
    intro m₂
    have hrun : runBody (interpretWithin step room) (after ++ []) { m₂ with depth } =
        atDepth depth (andThen (inSequence after m₂) fun m ↦ (none, m)) :=
      runBody_straight hafter step room m₂ fun _ _ ↦ rfl
    rwa [List.append_nil, andThen_pure] at hrun
  rw [andThen_assoc]
  apply runBody_straight hbefore
  intro m₁ hm₁
  rw [runBody_cons hret, hinner m₁ hm₁]
  exact andThen_atDepth hback (inner m₁)

end Body

variable (hbody : f.body = .recorded (before ++ call :: after)) (harity : f.arity.allows 0 = true)

include harity

theorem interpretWith_call (hi : i.is "call" = true) (hi' : i.params = [name])
    (hf : m.functions[name]? = some f)
    (deeper : Option (Instruction → Machine σ → Outcome × Machine σ)) :
    interpretWith step deeper i m = invoke step deeper i f [] m := by
  exact interpretWith_performed (Instruction.isEof_of_is hi (by decide))
    (Statement.ofInstruction_eq_call_iff.2 ⟨hi, hi'⟩) (plan_call hf harity)

include hbody

/-- Without room a call is refused under the name of its function. -/
theorem interpretWithin_zero_call (hi : i.is "call" = true) (hi' : i.params = [name])
    (hf : m.functions[name]? = some f) :
    interpretWithin step 0 i m = (.failed, m.refuse i.operation (.callDepth f.name)) := by
  rw [interpretWithin, interpretWith_call step harity hi hi' hf, invoke, hbody]

include hbefore hafter hcall

/-- A call goes around what the inner call comes to one deeper. -/
theorem interpretWithin_around {n depth : Nat} (hi : i.is "call" = true) (hi' : i.params = [name])
    (hf : m.functions[name]? = some f)
    (hinner : ∀ m₁ : Machine σ, m₁.functions[name]? = some f →
      halted (interpretWithin step n call { m₁ with depth := depth + 1 }) =
        atDepth (depth + 1) (unrolled before after call.operation f.name n m₁)) :
    interpretWithin step (n + 1) i { m with depth } = executedUnless i
      (atDepth depth (unrolled before after call.operation f.name (n + 1) m)) := by
  have hrun := runBody_around (m := m) hbefore hafter hcall step fun m₁ hm₁ ↦
    hinner m₁ (by rw [hm₁, hf])
  rw [interpretWithin, interpretWith_call (m := { m with depth }) step harity hi hi' hf, invoke,
    hbody]
  simp only [hrun, ← unrolled_succ]
  rfl

/-- A call that has room for `n` more inside, from any depth. -/
theorem interpretWithin_succ_call (hcall' : call.params = [name]) (n depth : Nat)
    (hi : i.is "call" = true) (hi' : i.params = [name]) (hf : m.functions[name]? = some f) :
    interpretWithin step (n + 1) i { m with depth } = executedUnless i
      (atDepth depth (unrolled before after call.operation f.name (n + 1) m)) := by
  -- The inner call is an instruction of its own, one deeper, and finds what `before` has left.
  induction n generalizing i m depth with
  | zero =>
    apply interpretWithin_around hbefore hafter hcall step hbody harity hi hi' hf
    intro m₁ hf₁
    rw [interpretWithin_zero_call (m := { m₁ with depth := depth + 1 }) step hbody harity hcall
      hcall' hf₁]
    rfl
  | succ n ih =>
    apply interpretWithin_around hbefore hafter hcall step hbody harity hi hi' hf
    intro m₁ hf₁
    rw [ih (depth + 1) hcall hcall' hf₁, halted, executedUnless_error?, executedUnless_snd]

end Recursion

/-- A call, at depth `d`, of a function that does nothing but call itself between instructions that
are carried out by themselves. It does what those before the inner call do, one after another,
`256 - d` times, then complains once that the function is too deep, then does what those behind the
inner call do as many times. An error of the surface ends all this where it comes up, and else the
call is reported as executed. -/
theorem recursion_unrolls [Surface σ] {m : Machine σ} {name : String} {f : Function}
    {before after : List Instruction} {call i : Instruction} (hf : m.functions[name]? = some f)
    (hbody : f.body = .recorded (before ++ call :: after)) (harity : f.arity.allows 0 = true)
    (hcall : call.is "call" = true) (hcall' : call.params = [name])
    (hbefore : ∀ j ∈ before, j.IsStraight) (hafter : ∀ j ∈ after, j.IsStraight)
    (hi : i.is "call" = true) (hi' : i.params = [name]) (hdepth : m.depth < 256) :
    let n := 256 - m.depth
    let fault := Fault.callDepth f.name
    fault.text = "Call stack overflow in function " ++ f.name ∧
      interpret i m = executedUnless i
        (andThen
          (andThen (inSequence (List.replicate n before).flatten m)
            fun m ↦ (none, m.refuse call.operation fault))
          (inSequence (List.replicate n after).flatten)) ∧
      (interpret i m).2.depth = m.depth := by
  intro n fault
  have hroom : maxDepth - m.depth = (n - 1) + 1 := by
    have hlimit : maxDepth = 256 := rfl
    omega
  have hrun : interpret i m = executedUnless i
      (atDepth m.depth (unrolled before after call.operation f.name n m)) := by
    rw [interpret, hroom]
    have hn : n = (n - 1) + 1 := by omega
    have hstep := interpretWithin_succ_call hbefore hafter hcall (stepWithin m.unread) hbody harity
      hcall' (n - 1) m.depth hi hi' hf
    rwa [← hn] at hstep ⊢
  have hkept : (unrolled before after call.operation f.name n m).2.depth = m.depth :=
    depth_unrolled hbefore hafter n
  rw [atDepth_self hkept] at hrun
  refine ⟨rfl, hrun, ?_⟩
  rw [hrun, executedUnless_snd, hkept]

/-- With room for two calls there are two fills and two strokes, and one complaint in between. -/
theorem recursion_fromDepth254_unrolls :
    let m : Machine Canvas := { (fresh "").define
      (.recorded "f" [] [⟨"fill", []⟩, ⟨"Call", ["f"]⟩, ⟨"strk", []⟩]) with depth := 254 }
    (interpret ⟨"call", ["f"]⟩ m).1 = .executed ⟨"call", ["f"]⟩ ∧
      (interpret ⟨"call", ["f"]⟩ m).2.surface.commands = #[.fill, .fill, .stroke, .stroke] ∧
      (interpret ⟨"call", ["f"]⟩ m).2.transcript =
        (m.refuse "Call" (.callDepth "f")).transcript ∧
      (interpret ⟨"call", ["f"]⟩ m).2.depth = 254 := by
  intro m
  have hf : m.functions["f"]? =
      some (.recorded "f" [] ([⟨"fill", []⟩] ++ ⟨"Call", ["f"]⟩ :: [⟨"strk", []⟩])) :=
    getElem?_define_self (fresh "") _
  have hfill : ∀ j ∈ [(⟨"fill", []⟩ : Instruction)], j.IsStraight := by
    decide
  have hstroke : ∀ j ∈ [(⟨"strk", []⟩ : Instruction)], j.IsStraight := by
    decide
  obtain ⟨-, hcall, hdepth⟩ := recursion_unrolls (i := ⟨"call", ["f"]⟩) hf rfl rfl rfl rfl hfill
    hstroke rfl rfl (by decide)
  refine ⟨?_, ?_, ?_, hdepth⟩
  · rw [hcall]
    rfl
  · rw [hcall]
    rfl
  · rw [hcall]
    rfl

end Machine

end PenMachine
