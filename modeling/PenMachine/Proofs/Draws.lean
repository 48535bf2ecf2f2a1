import PenMachine.Proofs.Attempts
import PenMachine.Proofs.RandomStream

/-!
# Random numbers of a session

Random numbers come from one routine, and only running it moves on in their stream. So the numbers
that a program gets are those of the seed from the first one on, whatever else it does, and two
programs that start from the same seed get the same numbers as long as both ask for more
(`Machine.draws_follow_seed`). This counts the calls of the routine among all instructions that are
taken up, and each call finds the stream at the place that the count gives (`Threads.random`).
-/

namespace PenMachine

variable {σ τ : Type}

namespace Attempt

variable {a : Attempt σ}

/-- Whether the instruction comes to running the routine that draws a random number. -/
def drawsRandom (a : Attempt σ) : Bool :=
  (Machine.invoked? a.instruction a.machine).any fun (f, _) ↦
    match f.body with
    | .builtin .rand => true
    | _ => false

theorem drawsRandom_iff : a.drawsRandom = true ↔
    ∃ f args, Machine.invoked? a.instruction a.machine = some (f, args) ∧
      f.body = .builtin .rand := by
  unfold drawsRandom
  rcases Machine.invoked? a.instruction a.machine with _ | ⟨f, args⟩
  · simp
  · rcases hbody : f.body with routine | routine | body
    · cases routine <;> simp [hbody]
    · simp [hbody]
    · simp [hbody]

variable [Surface σ]

/-- What is in `$ret` when the instruction has been carried out. -/
def result (a : Attempt σ) : Number :=
  (Machine.interpret a.instruction a.machine).2.registers.get .ret

/-- A call of the routine leaves the number that it drew in `$ret`. -/
theorem interpret_of_drawsRandom (h : a.drawsRandom = true) :
    Machine.interpret a.instruction a.machine =
      (.executed a.instruction,
        a.machine.drawRandom.2.setRegister .ret a.machine.drawRandom.1) := by
  obtain ⟨f, args, hcalls, hbody⟩ := drawsRandom_iff.1 h
  obtain ⟨heof, s, hs, hplan⟩ := Machine.invoked?_eq_some_iff.1 hcalls
  obtain ⟨deeper, hinterpret⟩ := Machine.exists_interpret a.instruction a.machine
  rw [hinterpret, Machine.interpretWith_performed heof hs hplan, Machine.perform, Machine.invoke,
    hbody]
  rfl

/-- The number is the next one of the seed's stream. -/
theorem result_of_drawsRandom (h : a.drawsRandom = true) :
    a.result = Random.draw a.machine.random.seed a.machine.random.drawn := by
  rw [result, interpret_of_drawsRandom h, Machine.setRegister, Registers.get_set, if_pos rfl]
  rfl

/-- A call of the routine moves on by one in the stream, and nothing else moves on. -/
theorem random_effect (a : Attempt σ) :
    a.effect.random = if a.drawsRandom then a.machine.random.next.2 else a.machine.random := by
  cases Machine.effect_cases a with
  | compare stated eq =>
    have hnot : a.drawsRandom = false := by
      rw [← Bool.not_eq_true, drawsRandom_iff]
      rintro ⟨f, args, hcalls, -⟩
      obtain ⟨-, s, hs, hplan⟩ := Machine.invoked?_eq_some_iff.1 hcalls
      obtain rfl : s = _ := by simpa [stated] using hs.symm
      cases hplan
    rw [eq, hnot]
    rfl
  | draw calls body eq =>
    rw [eq, if_pos (drawsRandom_iff.2 ⟨_, _, calls, body⟩)]
    rfl
  | other silent still steady =>
    have hnot : ¬ a.drawsRandom = true := by
      rw [drawsRandom_iff]
      rintro ⟨f, args, hcalls, hbody⟩
      exact still f args hcalls hbody
    rw [if_neg hnot, steady.random]

end Attempt

/-- The numbers that calls of the routine return, in the order of the calls. -/
def drawn [Surface σ] (taken : List (Attempt σ)) : List Number :=
  (taken.filter Attempt.drawsRandom).map Attempt.result

section Threads

variable [Surface σ] {taken : List (Attempt σ)} {m m' : Machine σ} {seed : UInt64}

/-- The numbers are those of the stream from the place where it is at first, and the place moves on
by as many. -/
theorem Threads.random {n : Nat} (h : Threads taken m m') (hm : m.random = ⟨seed, n⟩) :
    drawn taken = (List.range' n (taken.countP Attempt.drawsRandom)).map (Random.draw seed) ∧
      m'.random = ⟨seed, n + taken.countP Attempt.drawsRandom⟩ := by
  -- Only what an attempt does by itself can move the place, so it is `n` or `n + 1` for the rest.
  induction taken generalizing m n with
  | nil => exact ⟨rfl, h.random.trans hm⟩
  | cons a rest ih =>
    have ha : a.machine.random = ⟨seed, n⟩ := h.1.random.trans hm
    have heffect := a.random_effect
    cases hdraws : a.drawsRandom with
    | true =>
      rw [hdraws, if_pos rfl, ha] at heffect
      obtain ⟨hrest, hend⟩ := ih h.2 heffect
      have hfirst : a.result = Random.draw seed n := by
        rw [Attempt.result_of_drawsRandom hdraws, ha]
      rw [List.countP_cons_of_pos hdraws, hend, List.range'_succ, List.map_cons, ← hrest, ← hfirst,
        drawn, List.filter_cons_of_pos hdraws, List.map_cons, Nat.add_right_comm]
      exact ⟨rfl, rfl⟩
    | false =>
      have hnot : ¬ a.drawsRandom = true := by simp [hdraws]
      rw [if_neg hnot, ha] at heffect
      rw [List.countP_cons_of_neg hnot, drawn, List.filter_cons_of_neg hnot]
      exact ih h.2 heffect

/-- A machine starts at the first number of its seed. -/
theorem Course.random {source : String} {surface : σ}
    (h : Course (.initial source surface seed) taken m) :
    drawn taken = (List.range (taken.countP Attempt.drawsRandom)).map (Random.draw seed) ∧
      m.random = ⟨seed, taken.countP Attempt.drawsRandom⟩ := by
  obtain ⟨hdrawn, hend⟩ := h.threads.random rfl
  rw [Nat.zero_add] at hend
  rw [List.range_eq_range']
  exact ⟨hdrawn, hend⟩

/-- When an instruction is taken up, the stream is at the place that the calls before it have led
to. -/
theorem Course.random_of_append {source : String} {surface : σ} {before after : List (Attempt σ)}
    {a : Attempt σ} (h : Course (.initial source surface seed) (before ++ a :: after) m) :
    a.machine.random = ⟨seed, before.countP Attempt.drawsRandom⟩ := by
  obtain ⟨m₁, hbefore, hafter⟩ := h.threads.split
  have hend := (hbefore.random rfl).2
  rw [Nat.zero_add] at hend
  exact hafter.1.random.trans hend

/-- An instruction that fails has not run the routine. -/
theorem Attempt.random_of_failed {a : Attempt σ}
    (h : (Machine.interpret a.instruction a.machine).1 = .failed) :
    a.drawsRandom = false ∧
      (Machine.interpret a.instruction a.machine).2.random = a.machine.random := by
  constructor
  · rw [← Bool.not_eq_true]
    intro hdraws
    rw [interpret_of_drawsRandom hdraws] at h
    cases h
  · obtain ⟨reports, -, hfailure⟩ := Machine.interpret_failed (Prod.ext h rfl)
    exact hfailure.agree.random

end Threads

theorem map_range_mono {α : Type} (f : Nat → α) {n n' : Nat} (h : n ≤ n') :
    (List.range n).map f <+: (List.range n').map f := by
  have htake : (List.range n').take n = List.range n := by
    rw [List.take_range, Nat.min_eq_left h]
  rw [← htake]
  exact (List.take_prefix n _).map f

/-- Whatever two programs do from the same seed on, the numbers that they draw are the first ones of
the seed's stream, in order. So those of one program are the first of the other's. At any moment the
place in the stream is the number of calls of the routine so far. Other instructions do not move it,
and neither do calls that fail. A generator that makes any number of blocks ahead and reads them off
word by word draws the same numbers, and each one is a whole number below `2 ^ 53` divided by
`2 ^ 53`. -/
theorem Machine.draws_follow_seed [Surface σ] [Surface τ] {seed : UInt64} {source source' : String}
    {surface : σ} {surface' : τ} {taken : List (Attempt σ)} {taken' : List (Attempt τ)}
    {m : Machine σ} {m' : Machine τ} (h : Course (.initial source surface seed) taken m)
    (h' : Course (.initial source' surface' seed) taken' m') :
    let count := taken.countP Attempt.drawsRandom
    drawn taken = (List.range count).map (Random.draw seed) ∧
    m.random = ⟨seed, count⟩ ∧
    (∀ before a after, taken = before ++ a :: after →
      a.machine.random = ⟨seed, before.countP Attempt.drawsRandom⟩) ∧
    (∀ a ∈ taken, (interpret a.instruction a.machine).1 = .failed →
      a.drawsRandom = false ∧
        (interpret a.instruction a.machine).2.random = a.machine.random) ∧
    (drawn taken <+: drawn taken' ∨ drawn taken' <+: drawn taken) ∧
    (∀ blocks, 0 < blocks →
      drawn taken = (Random.Reader.bits (Random.key seed) blocks ⟨0, []⟩ count).map fun bits ↦
        .ofRatio false (bits * quantaPerUnit) (1 <<< 53)) ∧
    (∀ value ∈ drawn taken, ∃ k quanta representable,
      value = .finite false quanta representable ∧ k < 1 <<< 53 ∧
        quanta * 1 <<< 53 = k * quantaPerUnit) := by
  intro count
  obtain ⟨hdrawn, hrandom⟩ := h.random
  obtain ⟨hdrawn', -⟩ := h'.random
  refine ⟨hdrawn, hrandom, ?_, fun a _ hfailed ↦ Attempt.random_of_failed hfailed, ?_,
    fun blocks hblocks ↦ ?_, fun value hvalue ↦ ?_⟩
  · rintro before a after rfl
    exact h.random_of_append
  · rw [hdrawn, hdrawn']
    rcases Nat.le_total count (taken'.countP Attempt.drawsRandom) with hle | hle
    · exact .inl (map_range_mono _ hle)
    · exact .inr (map_range_mono _ hle)
  · rw [hdrawn, Random.Reader.bits_start seed hblocks, List.map_map]
    rfl
  · rw [hdrawn] at hvalue
    obtain ⟨n, -, rfl⟩ := List.mem_map.1 hvalue
    obtain ⟨hrepresentable, hdraw⟩ := Random.draw_eq seed n
    exact ⟨_, _, hrepresentable, hdraw, Random.drawBits_lt seed n, Random.shiftLeft_mul_eq _⟩

namespace Machine

/-- A call that fails comes before one that does not, and the number is still the first one. -/
theorem draws_after_failedCall :
    let m := fresh ""
    let failed := interpret ⟨"call", ["rand", "1"]⟩ m
    failed.1 = .failed ∧
      (interpret ⟨"call", ["rand"]⟩ failed.2).2.registers.get .ret = Random.draw 7 0 ∧
      (interpret ⟨"call", ["rand"]⟩ failed.2).2.random = ⟨7, 1⟩ := by
  intro m failed
  have hrand : m.functions["rand"]? = some ⟨"rand", .exactly 0, [], .builtin .rand⟩ := by
    simp [m, fresh, initial, initialFunctions, Function.builtins, Std.HashMap.getElem_insert]
  have hplan : m.plan (.call "rand" ["1"]) = .error (.argumentMismatch 1 "rand") := by
    simp [plan, planCall, hrand, Arity.allows, Arity.exactly]
  have hfailed : failed = (.failed, m.refuse "call" (.argumentMismatch 1 "rand")) := by
    obtain ⟨deeper, hinterpret⟩ := exists_interpret ⟨"call", ["rand", "1"]⟩ m
    exact hinterpret.trans (interpretWith_refused rfl rfl hplan)
  have hnone : invoked? ⟨"call", ["rand", "1"]⟩ m = none := by
    have hs : Statement.ofInstruction ⟨"call", ["rand", "1"]⟩ = .ok (.call "rand" ["1"]) := rfl
    simp [invoked?, Instruction.isEof, hs, hplan]
  have hcalls : invoked? ⟨"call", ["rand"]⟩ failed.2 =
      some (⟨"rand", .exactly 0, [], .builtin .rand⟩, []) := by
    refine invoked?_eq_some_iff.2 ⟨rfl, .call "rand" [], rfl, ?_⟩
    have hfunctions : failed.2.functions = m.functions := by rw [hfailed]; rfl
    exact plan_call (by rw [hfunctions]; exact hrand) rfl
  have hcourse : Course m [⟨⟨"call", ["rand", "1"]⟩, m⟩, ⟨⟨"call", ["rand"]⟩, failed.2⟩]
      (interpret ⟨"call", ["rand"]⟩ failed.2).2 := by
    have hfirst : taken ⟨"call", ["rand", "1"]⟩ m = [⟨⟨"call", ["rand", "1"]⟩, m⟩] :=
      takenWithin_eq_singleton (by simp [hnone]) _
    have hsecond : taken ⟨"call", ["rand"]⟩ failed.2 = [⟨⟨"call", ["rand"]⟩, failed.2⟩] :=
      takenWithin_eq_singleton (by simp [hcalls]) _
    have hall := ((Course.start m).serve (.interpret ⟨"call", ["rand", "1"]⟩)).serve
      (.interpret ⟨"call", ["rand"]⟩)
    simp only [Request.taken, Request.serve, hfirst, List.nil_append] at hall
    rwa [hsecond] at hall
  have hquiet : Attempt.drawsRandom ⟨⟨"call", ["rand", "1"]⟩, m⟩ = false := by
    simp [Attempt.drawsRandom, hnone]
  have hdraws : Attempt.drawsRandom ⟨⟨"call", ["rand"]⟩, failed.2⟩ = true := by
    simp [Attempt.drawsRandom, hcalls]
  obtain ⟨hdrawn, hrandom, -⟩ := draws_follow_seed hcourse
    (Course.start (initial "call rand" (Canvas.empty 4 4) 7))
  have hresult : Attempt.result ⟨⟨"call", ["rand"]⟩, failed.2⟩ = Random.draw 7 0 := by
    simpa [drawn, hquiet, hdraws] using hdrawn
  exact ⟨by rw [hfailed], hresult, by simpa [hquiet, hdraws] using hrandom⟩

end Machine

end PenMachine
