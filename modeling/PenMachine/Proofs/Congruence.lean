import PenMachine.Proofs.Atomicity

/-!
# What an instruction depends on

Two machines that agree on registers, variables, functions, surface and random numbers carry out an
instruction alike: the same events, the same outcome, and machines that agree again. The text still
to be read, the depth and what has been said make no difference. There are two provisos. The
instruction is no `func`, and no function holds one, since recording reads the text; and both
machines have the same room for calls, or the first never runs out of it
(`Machine.alike_interpretWithin`).
-/

namespace PenMachine

variable {σ : Type}

namespace Agree

variable {m m' m₁ : Machine σ}

theorem refl (m : Machine σ) : Agree m m := ⟨rfl, rfl, rfl, rfl, rfl⟩

theorem symm (h : Agree m m') : Agree m' m :=
  ⟨h.registers.symm, h.vars.symm, h.functions.symm, h.surface.symm, h.random.symm⟩

theorem trans (h₁ : Agree m m₁) (h₂ : Agree m₁ m') : Agree m m' :=
  ⟨h₂.registers.trans h₁.registers, h₂.vars.trans h₁.vars, h₂.functions.trans h₁.functions,
    h₂.surface.trans h₁.surface, h₂.random.trans h₁.random⟩

/-- What machines that agree may differ in. -/
theorem exists_eq (h : Agree m m') : ∃ (unread : List Char) (depth : Nat)
    (transcript : Transcript), m' = { m with unread, depth, transcript } := by
  refine ⟨m'.unread, m'.depth, m'.transcript, ?_⟩
  rw [← h.registers, ← h.vars, ← h.functions, ← h.surface, ← h.random]

/-- Machines go on to agree whatever becomes of these. -/
theorem elsewhere (h : Agree m m') {unread unread' : List Char} {depth depth' : Nat}
    {transcript transcript' : Transcript} :
    Agree { m with unread, depth, transcript }
      { m' with unread := unread', depth := depth', transcript := transcript' } :=
  ⟨h.registers, h.vars, h.functions, h.surface, h.random⟩

end Agree

/-- Whether a body leaves the text alone: it is a routine of the machine's own, or instructions with
no `func` among them. What routines of the embedding program do is up to them. -/
def Body.KeepsText : Body → Prop
  | .builtin _ => True
  | .host _ => False
  | .recorded body => ∀ i ∈ body, i.is "func" = false

namespace Machine

/-- Whether no function can read on in the text when it is called. -/
def KeepsText (m : Machine σ) : Prop :=
  ∀ (name : String) (f : Function), m.functions[name]? = some f → f.body.KeepsText

/-- Whether no function is a routine of the embedding program. -/
def OwnRoutines (m : Machine σ) : Prop :=
  ∀ (name : String) (f : Function), m.functions[name]? = some f → ∀ routine, f.body ≠ .host routine

/-- A machine whose functions leave the text alone has no routines but its own. -/
theorem KeepsText.ownRoutines {m : Machine σ} (h : m.KeepsText) : m.OwnRoutines := by
  intro name f hf routine hbody
  have hkeeps := h name f hf
  rwa [hbody] at hkeeps

theorem OwnRoutines.stepless {m : Machine σ} (h : m.OwnRoutines) : m.Stepless := by
  intro name f hf
  have hown := h name f hf
  cases hbody : f.body with
  | host routine => exact absurd hbody (hown routine)
  | builtin | recorded => trivial

theorem KeepsText.stepless {m : Machine σ} (h : m.KeepsText) : m.Stepless := h.ownRoutines.stepless

theorem KeepsText.of_functions {m m' : Machine σ} (h : m.KeepsText)
    (hfunctions : m'.functions = m.functions) : m'.KeepsText := by
  unfold KeepsText
  rw [hfunctions]
  exact h

/-- A plan looks at registers, variables and functions only. -/
theorem plan_congr {m m' : Machine σ} (h : Agree m m') (s : Statement) : m'.plan s = m.plan s := by
  obtain ⟨unread, depth, transcript, rfl⟩ := h.exists_eq
  cases s <;> rfl

/-- Two runs that start from machines that agree, the first from `m`, and have the same events and
the same outcome. The machines agree at the end as well, and the first has kept its functions and
its place in the text. -/
structure Alike {α : Type} (m : Machine σ) (events events' : List Event) (r r' : α × Machine σ) :
    Prop where
  events : events' = events
  outcome : r'.1 = r.1
  agree : Agree r.2 r'.2
  functions : r.2.functions = m.functions
  unread : r.2.unread = m.unread

/-- Whether two runs can be compared: they have the same room for calls, or the first, which has
these events, never runs out of it. -/
def Comparable (same : Prop) (events : List Event) : Prop :=
  same ∨ ∀ name : String, Event.overflow name ∉ events

theorem Comparable.mono {same : Prop} {events part : List Event} (h : Comparable same events)
    (hpart : ∀ e ∈ part, e ∈ events) : Comparable same part := by
  rcases h with hsame | hroom
  · exact .inl hsame
  · exact .inr fun name hmem ↦ hroom name (hpart _ hmem)

/-- Whether the second of two ways of running instructions does what the first does, wherever they
can be compared. -/
def Follows (same : Prop) (runner runner' : Runner σ) : Prop :=
  ∀ (i : Instruction) (m m' : Machine σ), Agree m m' → m.KeepsText → i.is "func" = false →
    Comparable same (runner.events i m) →
      Alike m (runner.events i m) (runner'.events i m') (runner.run i m) (runner'.run i m')

namespace Alike

variable {α : Type} {m : Machine σ} {events events' : List Event}

theorem cons {r r' : α × Machine σ} (e : Event) (h : Alike m events events' r r') :
    Alike m (e :: events) (e :: events') r r' :=
  ⟨by rw [h.events], h.outcome, h.agree, h.functions, h.unread⟩

theorem append {r r' : α × Machine σ} (h : Alike m events events' r r') (after : List Event) :
    Alike m (events ++ after) (events' ++ after) r r' :=
  ⟨by rw [h.events], h.outcome, h.agree, h.functions, h.unread⟩

/-- Runs one call deeper that are alike are alike when they are left. -/
theorem leave {deep : Nat} {r r' : α × Machine σ}
    (h : Alike { m with depth := deep } events events' r r') (depth depth' : Nat) :
    Alike m events events' (r.1, { r.2 with depth }) (r'.1, { r'.2 with depth := depth' }) :=
  ⟨h.events, h.outcome, h.agree.elsewhere, h.functions, h.unread⟩

theorem executedUnless {r r' : Option Error × Machine σ} (h : Alike m events events' r r')
    (i : Instruction) : Alike m events events' (executedUnless i r) (executedUnless i r') := by
  obtain ⟨error?, m₁⟩ := r
  obtain ⟨error?', m₁'⟩ := r'
  obtain rfl : error?' = error? := h.outcome
  cases error?' with
  | none => exact ⟨h.events, rfl, h.agree, h.functions, h.unread⟩
  | some error => exact ⟨h.events, rfl, h.agree, h.functions, h.unread⟩

end Alike

theorem alike_log {m m' : Machine σ} (h : Agree m m') (i : Instruction) (lines : List String) :
    Alike m (lines.map (.say .log)) (lines.map (.say .log))
      (Outcome.executed i, lines.foldl (fun m line ↦ m.say .log line) m)
      (Outcome.executed i, lines.foldl (fun m line ↦ m.say .log line) m') := by
  rw [foldl_say, foldl_say]
  exact ⟨rfl, rfl, h.elsewhere, rfl, rfl⟩

/-- Agreeing machines have the same surface, which refuses the same. -/
theorem alike_drawAll [Surface σ] {m m' : Machine σ} (h : Agree m m') (commands : List Command) :
    Alike m (drawEvents commands m.surface) (drawEvents commands m'.surface)
      (drawAll commands m) (drawAll commands m') := by
  obtain ⟨unread, depth, transcript, rfl⟩ := h.exists_eq
  rw [drawAll_eq, drawAll_eq]
  exact ⟨rfl, rfl, ⟨rfl, rfl, rfl, rfl, rfl⟩, rfl, rfl⟩

theorem alike_builtin {m m' : Machine σ} (h : Agree m m') (routine : Builtin)
    (args : List Number) :
    Alike m (builtinEvents routine args) (builtinEvents routine args) (m.runBuiltin routine args)
      (m'.runBuiltin routine args) := by
  obtain ⟨unread, depth, transcript, rfl⟩ := h.exists_eq
  cases routine <;> exact ⟨rfl, rfl, ⟨rfl, rfl, rfl, rfl, rfl⟩, rfl, rfl⟩

/-- The instructions of a body are no `func`, so they follow one another on both machines. -/
theorem alike_runBody {same : Prop} {runner runner' : Runner σ} (h : Follows same runner runner')
    {body : List Instruction} (hbody : ∀ i ∈ body, i.is "func" = false) {m m' : Machine σ}
    (hagree : Agree m m') (hm : m.KeepsText)
    (hcomparable : Comparable same (bodyEvents runner body m)) :
    Alike m (bodyEvents runner body m) (bodyEvents runner' body m') (runBody runner.run body m)
      (runBody runner'.run body m') := by
  induction body generalizing m m' with
  | nil => exact ⟨rfl, rfl, hagree, rfl, rfl⟩
  | cons j rest ih =>
    have hj := h j m m' hagree hm (hbody j (by simp))
      (hcomparable.mono fun e he ↦ List.mem_append_left _ he)
    unfold bodyEvents runBody
    unfold bodyEvents at hcomparable
    rcases hrun : runner.run j m with ⟨outcome, m₁⟩
    rcases hrun' : runner'.run j m' with ⟨outcome', m₁'⟩
    rw [hrun, hrun'] at hj
    obtain rfl : outcome' = outcome := hj.outcome
    rw [hrun] at hcomparable
    cases outcome' with
    | fatal error => exact ⟨by simp [hj.events], rfl, hj.agree, hj.functions, hj.unread⟩
    | eof | executed | failed =>
      by_cases hret : j.is "ret"
      · simp only [hret, if_true]
        exact ⟨by simp [hj.events], rfl, hj.agree, hj.functions, hj.unread⟩
      · simp only [hret, Bool.false_eq_true, if_false] at hcomparable ⊢
        have hrest := ih (fun i hi ↦ hbody i (List.mem_cons_of_mem j hi)) hj.agree
          (hm.of_functions hj.functions) (hcomparable.mono fun e he ↦ List.mem_append_right _ he)
        exact ⟨by rw [hj.events, hrest.events], hrest.outcome, hrest.agree,
          hrest.functions.trans hj.functions, hrest.unread.trans hj.unread⟩

/-- What is needed of two ways of running instructions one call deeper. The first may be missing
while the second is not, but then there is not the same room. -/
def FollowsDeeper (same : Prop) : Option (Runner σ) → Option (Runner σ) → Prop
  | none, none => True
  | none, some _ => ¬ same
  | some _, none => False
  | some runner, some runner' => Follows same runner runner'

section Deeper

variable {same : Prop} {step step' : Machine σ → Outcome × Machine σ}
  {deeper deeper' : Option (Runner σ)} {i : Instruction} {m m' : Machine σ}

/-- A call runs the same body on both machines. Where the first has no room for it, either neither
has any or the two are not compared. -/
theorem alike_invoke (h : FollowsDeeper same deeper deeper') (hagree : Agree m m')
    (hm : m.KeepsText) {f : Function} {args : List Number} (hf : (Action.invoke f args).Allowed m)
    (hcomparable : Comparable same (invokeEvents deeper i f args m)) :
    Alike m (invokeEvents deeper i f args m) (invokeEvents deeper' i f args m')
      (invoke step (deeper.map Runner.run) i f args m)
      (invoke step' (deeper'.map Runner.run) i f args m') := by
  obtain ⟨name, hname, -⟩ := hf
  unfold invokeEvents at hcomparable
  unfold invokeEvents invoke
  have hkeeps := hm name f hname
  cases hbody : f.body with
  | builtin routine =>
    have hrun := alike_builtin hagree routine args
    dsimp only
    refine ⟨by rw [hrun.outcome], rfl, ?_, hrun.functions, hrun.unread⟩
    refine ⟨?_, hrun.agree.vars, hrun.agree.functions, hrun.agree.surface, hrun.agree.random⟩
    rw [setRegister, setRegister, hrun.outcome, hrun.agree.registers]
  | host routine => exact absurd hbody (hm.ownRoutines name f hname routine)
  | recorded body =>
    rw [hbody] at hkeeps hcomparable
    cases deeper with
    | none =>
      cases deeper' with
      | none => exact ⟨rfl, rfl, hagree.elsewhere, rfl, rfl⟩
      | some runner' =>
        -- Without the same room the first run must not be out of it.
        rcases hcomparable with hsame | hroom
        · exact absurd hsame h
        · exact absurd List.mem_cons_self (hroom f.name)
    | some runner =>
      cases deeper' with
      | none => exact h.elim
      | some runner' =>
        have hdeep : Agree { m with depth := m.depth + 1 } { m' with depth := m'.depth + 1 } :=
          hagree.elsewhere
        have hrun := alike_runBody h hkeeps hdeep hm (hcomparable.mono fun e he ↦ by simp [he])
        have hleft := (hrun.leave m.depth m'.depth).executedUnless i
        exact (hleft.cons (.enter f.name)).append [.leave]

theorem alike_perform [Surface σ] (h : FollowsDeeper same deeper deeper') (hagree : Agree m m')
    (hm : m.KeepsText) {a : Action} (ha : a.Allowed m)
    (hrecord : ∀ name argNames, a ≠ .record name argNames)
    (hcomparable : Comparable same (performEvents deeper i m a)) :
    Alike m (performEvents deeper i m a) (performEvents deeper' i m' a)
      (perform step (deeper.map Runner.run) i m a)
      (perform step' (deeper'.map Runner.run) i m' a) := by
  cases a with
  | skip => exact ⟨rfl, rfl, hagree, rfl, rfl⟩
  | setRegister | removeVariable =>
    obtain ⟨unread, depth, transcript, rfl⟩ := hagree.exists_eq
    exact ⟨rfl, rfl, ⟨rfl, rfl, rfl, rfl, rfl⟩, rfl, rfl⟩
  | setVariable name value =>
    obtain ⟨unread, depth, transcript, rfl⟩ := hagree.exists_eq
    have ha' : (Action.setVariable name value).Allowed { m with unread, depth, transcript } := ha
    rw [perform_setVariable ha, perform_setVariable ha']
    exact ⟨rfl, rfl, ⟨rfl, rfl, rfl, rfl, rfl⟩, rfl, rfl⟩
  | log lines => exact alike_log hagree i lines
  | record name argNames => exact absurd rfl (hrecord name argNames)
  | invoke f args => exact alike_invoke h hagree hm ha hcomparable
  | draw commands =>
    exact (alike_drawAll hagree commands).executedUnless i

/-- Agreeing machines plan the same and carry it out alike. -/
theorem alike_interpretWith [Surface σ] (h : FollowsDeeper same deeper deeper')
    (hagree : Agree m m') (hm : m.KeepsText) (hi : i.is "func" = false)
    (hcomparable : Comparable same (eventsWith deeper i m)) :
    Alike m (eventsWith deeper i m) (eventsWith deeper' i m')
      (interpretWith step (deeper.map Runner.run) i m)
      (interpretWith step' (deeper'.map Runner.run) i m') := by
  cases heof : i.isEof with
  | true =>
    simp only [interpretWith_eof heof, eventsWith_eof heof]
    exact ⟨rfl, rfl, hagree, rfl, rfl⟩
  | false =>
    cases hs : Statement.ofInstruction i with
    | error rejection =>
      simp only [interpretWith_rejected heof hs, eventsWith_rejected heof hs]
      exact ⟨rfl, rfl, hagree.elsewhere, rfl, rfl⟩
    | ok s =>
      have hplan' := plan_congr hagree s
      cases hplan : m.plan s with
      | error fault =>
        rw [hplan] at hplan'
        rw [interpretWith_refused heof hs hplan, eventsWith_refused heof hs hplan,
          interpretWith_refused heof hs hplan', eventsWith_refused heof hs hplan']
        exact ⟨rfl, rfl, hagree.elsewhere, rfl, rfl⟩
      | ok a =>
        rw [hplan] at hplan'
        have hrecord : ∀ name argNames, a ≠ .record name argNames := by
          rintro name argNames rfl
          exact plan_ne_record hs hi name argNames hplan
        rw [eventsWith_performed heof hs hplan] at hcomparable
        rw [interpretWith_performed heof hs hplan, eventsWith_performed heof hs hplan,
          interpretWith_performed heof hs hplan', eventsWith_performed heof hs hplan']
        apply Alike.cons
        exact alike_perform h hagree hm (plans_of_plan hplan).allowed hrecord
          (hcomparable.mono fun e he ↦ List.mem_cons_of_mem _ he)

end Deeper

/-- Machines that agree carry out an instruction alike. -/
theorem alike_interpretWithin [Surface σ] {step step' : Machine σ → Outcome × Machine σ}
    {room room' : Nat} (hroom : room ≤ room') {i : Instruction} {m m' : Machine σ}
    (hagree : Agree m m') (hm : m.KeepsText) (hi : i.is "func" = false)
    (hcomparable : Comparable (room = room') (eventsWithin step room i m)) :
    Alike m (eventsWithin step room i m) (eventsWithin step' room' i m')
      (interpretWithin step room i m) (interpretWithin step' room' i m') := by
  induction room generalizing room' i m m' with
  | zero =>
    cases room' with
    | zero =>
      have hdeeper : FollowsDeeper (0 = 0) (none : Option (Runner σ)) none := trivial
      exact alike_interpretWith hdeeper hagree hm hi hcomparable
    | succ room' =>
      have hdeeper : FollowsDeeper (0 = room' + 1) none
          (some ⟨interpretWithin step' room', eventsWithin step' room'⟩) := by
        simp [FollowsDeeper]
      exact alike_interpretWith hdeeper hagree hm hi hcomparable
  | succ room ih =>
    cases room' with
    | zero => exact absurd hroom (by simp)
    | succ room' =>
      have hdeeper : FollowsDeeper (room + 1 = room' + 1)
          (some ⟨interpretWithin step room, eventsWithin step room⟩)
          (some ⟨interpretWithin step' room', eventsWithin step' room'⟩) := by
        intro j m₁ m₁' hagree₁ hm₁ hj hcomparable₁
        rw [Nat.add_right_cancel_iff] at hcomparable₁
        exact ih (Nat.le_of_succ_le_succ hroom) hagree₁ hm₁ hj hcomparable₁
      exact alike_interpretWith hdeeper hagree hm hi hcomparable

end Machine

end PenMachine
