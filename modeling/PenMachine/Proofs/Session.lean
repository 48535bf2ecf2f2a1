import PenMachine.Proofs.Fatality

/-!
# Sessions

A session is all that the embedding program has one machine do: it hands over programs, has steps
taken and instructions carried out, and has the surface measured anew. Meanwhile it may read off
what the machine says and do to the surface what it likes, but it adds no functions.
`Session measured m` says that `m` arises in this way, `measured` being the surface as it was when
its extents were last taken over.

Some things hold of the machine at all times (`Machine.Sound`): the constants, the values that
`$cmp` can have, the names and the number of the variables, the machine's own functions. Every event
keeps them, so they hold between requests, after errors and in the middle of calls
(`Machine.session_keeps_sound`).
-/

namespace PenMachine

variable {σ : Type}

namespace Machine

variable [Surface σ] {m m' : Machine σ}

/-- What happens during so many steps of a run. -/
def runEventsWithin : Nat → Machine σ → List Event
  | 0, _ => []
  | length + 1, m =>
    m.stepEvents ++
      match m.step with
      | (.eof, _) | (.fatal _, _) => []
      | (_, m) => runEventsWithin length m

/-- The events of a run are those of its steps. -/
theorem accounts_runWithin (hm : m.Stepless) (length count : Nat) :
    ∃ error?, Accounts m (runEventsWithin length m) error? (runWithin length count m).2 := by
  induction length generalizing m count with
  | zero => exact ⟨none, .nil m⟩
  | succ length ih =>
    have hstep := accounts_stepEvents hm
    rw [runEventsWithin, runWithin]
    rcases houtcome : m.step with ⟨outcome, m₁⟩
    rw [houtcome] at hstep
    cases outcome with
    | eof => exact ⟨none, by simpa using hstep⟩
    | fatal error => exact ⟨some error, by simpa using hstep⟩
    | executed | failed =>
      obtain ⟨error?, hrest⟩ := ih (hm.trace hstep.trace) (count + 1)
      exact ⟨error?, hstep.append hrest⟩

end Machine

/-- What the embedding program can ask of a machine. -/
inductive Request where
  | reset (source : String)
  | step
  | run
  | interpret (i : Instruction)

namespace Request

variable [Surface σ]

/-- The machine when the request is served, whatever the outcome. -/
def serve : Request → Machine σ → Machine σ
  | .reset source, m => m.reset source
  | .step, m => m.step.2
  | .run, m => m.run.2
  | .interpret i, m => (m.interpret i).2

/-- What happens while the request is served. -/
def events : Request → Machine σ → List Event
  | .reset source, _ =>
    [.say .debug ("Lexer reset with " ++ toString source.length ++ " characters of source"),
      .advance source.toList]
  | .step, m => m.stepEvents
  | .run, m => Machine.runEventsWithin m.unread.length m
  | .interpret i, m => Machine.events i m

/-- The events are a full account of the request, and it ends at the depth at which it started. -/
theorem accounts (r : Request) {m : Machine σ} (hm : m.Stepless) :
    ∃ error?, Accounts m (r.events m) error? (r.serve m) := by
  cases r with
  | reset source =>
    refine ⟨none, .cons trivial (by simp [Quiet]) rfl ?_⟩
    exact .single trivial (by simp [Quiet]) rfl
  | step => exact ⟨_, Machine.accounts_stepEvents hm⟩
  | run => exact Machine.accounts_runWithin hm _ 0
  | interpret i => exact ⟨_, Machine.accounts_interpret hm⟩

end Request

/-- The machines that arise in sessions, with the surface as it was last measured. -/
inductive Session [Surface σ] : σ → Machine σ → Prop where
  | start (source : String) (surface : σ) (seed : UInt64) :
    Session surface (.initial source surface seed)
  | serve {measured : σ} {m : Machine σ} (h : Session measured m) (r : Request) :
    Session measured (r.serve m)
  | updateSize {measured : σ} {m : Machine σ} (h : Session measured m) :
    Session m.surface m.updateSize
  | takeMessages {measured : σ} {m : Machine σ} (h : Session measured m) :
    Session measured m.takeMessages.2
  | exchange {measured : σ} {m : Machine σ} (h : Session measured m) (surface : σ) :
    Session measured { m with surface }

/-- No request adds a function that was not recorded. -/
theorem Session.fromSource [Surface σ] {measured : σ} {m : Machine σ} (h : Session measured m) :
    m.FromSource := by
  induction h with
  | start source surface seed => exact Machine.fromSource_initial source surface seed
  | serve _ r ih =>
    obtain ⟨error?, haccount⟩ := r.accounts ih.stepless
    exact ih.trace haccount.trace
  | updateSize _ ih | takeMessages _ ih | exchange _ _ ih => exact ih

/-- Between requests the machine is in no call. -/
theorem Session.depth [Surface σ] {measured : σ} {m : Machine σ} (h : Session measured m) :
    m.depth = 0 := by
  induction h with
  | start => rfl
  | serve h r ih =>
    obtain ⟨error?, haccount⟩ := r.accounts h.fromSource.stepless
    exact haccount.depth.trans ih
  | updateSize _ ih | takeMessages _ ih | exchange _ _ ih => exact ih

theorem Number.eq_false_of_lt {x y : Number} (h : x.lt y = true) :
    x.eq y = false ∧ y.eq x = false := by
  cases x with
  | nan => cases h
  | infinity negative =>
    cases y with
    | nan | finite => exact ⟨rfl, rfl⟩
    | infinity negative' => cases negative <;> cases negative' <;> simp [lt, eq] at h ⊢
  | finite negative quanta =>
    cases y with
    | nan | infinity => exact ⟨rfl, rfl⟩
    | finite negative' quanta' =>
      have hlt : signed negative quanta < signed negative' quanta' := of_decide_eq_true h
      simp only [eq, beq_eq_false_iff_ne]
      omega

theorem Flags.toNumber_of_toNat {flags : Flags} {n : Nat} (h : flags.bits.toNat = n) :
    flags.toNumber = OfNat.ofNat n := by
  rw [toNumber, h]
  rfl

/-- A comparison sets just one of the flags for equality, and one for the order only with that for
inequality. -/
theorem Flags.toNumber_compare (x y : Number) :
    (compare x y).toNumber ∈ ([0, 4, 5, 6, 8] : List Number) := by
  unfold compare
  cases hgreater : y.lt x with
  | true =>
    have hvalue : (greater ||| notEqual).toNumber = 6 := toNumber_of_toNat rfl
    simp [(Number.eq_false_of_lt hgreater).2, hvalue]
  | false =>
    cases hlesser : x.lt y with
    | true =>
      have hvalue : (lesser ||| notEqual).toNumber = 5 := toNumber_of_toNat rfl
      simp [(Number.eq_false_of_lt hlesser).1, hvalue]
    | false =>
      have hvalue : (none ||| notEqual).toNumber = 4 := toNumber_of_toNat rfl
      have hvalue' : (none ||| equal).toNumber = 8 := toNumber_of_toNat rfl
      cases x.eq y <;> simp [hvalue, hvalue']

/-- What holds of the registers at all times. -/
structure Registers.Sound [Surface σ] (measured : σ) (registers : Registers) : Prop where
  pi : registers.get .pi = Registers.pi
  deg2rad : registers.get .deg2rad = Registers.pi / 180
  rad2deg : registers.get .rad2deg = 180 / Registers.pi
  cmp : registers.get .cmp ∈ ([0, 4, 5, 6, 8] : List Number)
  w : registers.get .w = Surface.width measured
  h : registers.get .h = Surface.height measured

namespace Registers.Sound

variable [Surface σ] {measured : σ} {registers : Registers} {r : Register} {value : Number}

theorem initial (measured : σ) :
    Sound measured (.initial (Surface.width measured) (Surface.height measured)) := by
  have hzero : (⟨Vector.replicate 16 0⟩ : Registers).get .cmp = 0 := by
    simp [get, Vector.get]
  constructor <;> simp [Registers.initial, get_set, hzero]

/-- Taking over the extents of another surface. -/
theorem measure (h : Sound measured registers) (surface : σ) :
    Sound surface ((registers.set .w (Surface.width surface)).set .h (Surface.height surface)) := by
  constructor <;> simp [get_set, h.pi, h.deg2rad, h.rad2deg, h.cmp]

/-- The registers for results are none of those that are spoken of. -/
theorem set_result (h : Sound measured registers)
    (hr : r = .ret ∨ ∃ op : Operator, r = op.register) :
    Sound measured (registers.set r value) := by
  have hkept : ∀ r' ∈ [Register.cmp, .w, .h, .pi, .deg2rad, .rad2deg],
      (registers.set r value).get r' = registers.get r' := by
    intro r' hr'
    rw [get_set, if_neg]
    rintro rfl
    rcases hr with rfl | ⟨op, rfl⟩
    · simp at hr'
    · cases op <;> simp [Operator.register] at hr'
  constructor <;> rw [hkept _ (by simp)]
  · exact h.pi
  · exact h.deg2rad
  · exact h.rad2deg
  · exact h.cmp
  · exact h.w
  · exact h.h

/-- A comparison leaves one of its proper values in `$cmp`. -/
theorem set_cmp (h : Sound measured registers) (x y : Number) :
    Sound measured (registers.set .cmp (Flags.compare x y).toNumber) := by
  constructor <;> simp only [get_set, reduceCtorEq, if_false, if_true]
  · exact h.pi
  · exact h.deg2rad
  · exact h.rad2deg
  · exact Flags.toNumber_compare x y
  · exact h.w
  · exact h.h

end Registers.Sound

/-- What holds of the variables at all times. -/
structure Variables.Sound (vars : Variables) : Prop where
  named : ∀ name, vars.contains name = true → ['$', '.'] <+: name.toList
  few : vars.table.size ≤ 65535

namespace Variables.Sound

variable {vars : Variables} {name : String}

theorem initial : Sound .initial := by
  constructor
  · intro name hname
    rw [contains, Variables.initial, Std.HashMap.contains_insert,
      Std.HashMap.contains_emptyWithCapacity, Bool.or_false, beq_iff_eq] at hname
    rw [← hname]
    decide
  · rw [Variables.initial, Std.HashMap.size_insert]
    simp

/-- A write overwrites a variable, or it adds one where there is room. -/
theorem insert (h : Sound vars) (hroom : vars.hasRoom name = true)
    (hname : vars.contains name = true ∨ isVariableName name = true) (value : Number) :
    Sound (vars.insert name value) := by
  constructor
  · intro name' hname'
    rw [contains, Variables.insert, Std.HashMap.contains_insert, Bool.or_eq_true,
      beq_iff_eq] at hname'
    rcases hname' with rfl | hold
    · rcases hname with hold | hvariable
      · exact h.named name hold
      · rw [isVariableName, beq_iff_eq] at hvariable
        exact ⟨name.toList.drop 2, by rw [← hvariable, List.take_append_drop]⟩
    · exact h.named name' hold
  · have hfew := h.few
    rw [hasRoom, Bool.or_eq_true, decide_eq_true_iff] at hroom
    rw [Variables.insert, Std.HashMap.size_insert]
    split
    · exact hfew
    · rename_i hnew
      rcases hroom with hold | hroom
      · exact absurd hold hnew
      · exact hroom

theorem erase (h : Sound vars) (name : String) : Sound (vars.erase name) := by
  constructor
  · intro name' hname'
    exact h.named name' (Std.HashMap.contains_of_contains_erase hname')
  · exact Nat.le_trans Std.HashMap.size_erase_le h.few

end Variables.Sound

/-- What holds of a machine at all times, given the surface as it was last measured. -/
structure Machine.Sound [Surface σ] (measured : σ) (m : Machine σ) : Prop where
  registers : m.registers.Sound measured
  vars : m.vars.Sound
  builtins : ∀ f ∈ Function.builtins, m.functions.contains f.name = true

namespace Machine

variable [Surface σ] {measured : σ} {m m' : Machine σ}

theorem contains_of_foldl_insert {functions : List Function} {table : Std.HashMap String Function}
    {name : String} (h : table.contains name = true ∨ ∃ f ∈ functions, f.name = name) :
    (functions.foldl (fun table f ↦ table.insert f.name f) table).contains name = true := by
  induction functions generalizing table with
  | nil => simpa using h
  | cons g rest ih =>
    apply ih
    rw [Std.HashMap.contains_insert, Bool.or_eq_true, beq_iff_eq]
    rcases h with hold | ⟨f, hf, hname⟩
    · exact .inl (.inr hold)
    · rcases List.mem_cons.1 hf with rfl | hf
      · exact .inl (.inl hname)
      · exact .inr ⟨f, hf, hname⟩

theorem sound_initial (source : String) (surface : σ) (seed : UInt64) :
    Sound surface (initial source surface seed) where
  registers := .initial surface
  vars := .initial
  builtins f hf := contains_of_foldl_insert (.inr ⟨f, hf, rfl⟩)

/-- Every event keeps what holds at all times. -/
theorem Sound.apply {e : Event} (allowed : e.Allowed m) (h : Sound measured m) :
    Sound measured (e.apply m) := by
  cases e with
  | setRegister r value =>
    refine ⟨?_, h.vars, h.builtins⟩
    rcases allowed with hret | hresult | ⟨rfl, x, y, rfl⟩
    · exact h.registers.set_result (.inl hret)
    · exact h.registers.set_result (.inr hresult)
    · exact h.registers.set_cmp x y
  | setVariable name value =>
    exact ⟨h.registers, h.vars.insert allowed.1 allowed.2 value, h.builtins⟩
  | removeVariable name => exact ⟨h.registers, h.vars.erase name, h.builtins⟩
  | record name argNames body rest =>
    refine ⟨h.registers, h.vars, fun f hf ↦ ?_⟩
    simp [Event.apply, define, h.builtins f hf]
  | _ => exact ⟨h.registers, h.vars, h.builtins⟩

/-- Every event keeps the machine sound, so it is so in the middle of a call as well. -/
theorem Sound.trace {events : List Event} (h : Sound measured m) (ht : Trace m events m') :
    Sound measured m' :=
  ht.invariant Sound.apply h

/-- A call that is entered is within the limit, and no other event goes deeper. -/
theorem depth_le_of_trace {events : List Event} (h : m.depth ≤ maxDepth) (ht : Trace m events m') :
    m'.depth ≤ maxDepth := by
  refine ht.invariant (I := fun m ↦ m.depth ≤ maxDepth) ?_ h
  intro m e allowed hm
  cases e with
  | enter name => exact allowed
  | leave => exact Nat.le_trans (Nat.sub_le _ _) hm
  | _ => exact hm

/-- Requests come to events, and what else the embedding program does is no matter. -/
theorem sound_of_session (h : Session measured m) : Sound measured m := by
  induction h with
  | start source surface seed => exact sound_initial source surface seed
  | serve h r ih =>
    obtain ⟨error?, haccount⟩ := r.accounts h.fromSource.stepless
    exact ih.trace haccount.trace
  | @updateSize measured m h ih => exact ⟨ih.registers.measure m.surface, ih.vars, ih.builtins⟩
  | takeMessages _ ih | exchange _ _ ih => exact ⟨ih.registers, ih.vars, ih.builtins⟩

/-- What a machine is at all times in a session, also in the middle of a call. -/
structure Guarded (measured : σ) (m : Machine σ) : Prop where
  fromSource : m.FromSource
  sound : m.Sound measured

theorem Guarded.trace {events : List Event} (h : m.Guarded measured) (ht : Trace m events m') :
    m'.Guarded measured :=
  ⟨h.fromSource.trace ht, h.sound.trace ht⟩

theorem guarded_of_session (h : Session measured m) : m.Guarded measured :=
  ⟨h.fromSource, sound_of_session h⟩

/-- In every session the machine is sound and in no call, also after an error. While a request is
served it stays so at every moment, whatever the request and its outcome: the events of the request
lead to the machine that is left behind, and the machine after the first few of them is sound and no
more than 256 calls deep. -/
theorem session_keeps_sound (h : Session measured m) :
    Sound measured m ∧ m.depth = 0 ∧
      ∀ r : Request, Trace m (r.events m) (r.serve m) ∧
        ∀ before moment, before <+: r.events m → Trace m before moment →
          Sound measured moment ∧ moment.depth ≤ 256 := by
  have hsound := sound_of_session h
  have hdepth : m.depth ≤ maxDepth := by
    rw [h.depth]
    exact Nat.zero_le _
  refine ⟨hsound, h.depth, fun r ↦ ⟨?_, fun before moment _ hmoment ↦ ?_⟩⟩
  · obtain ⟨error?, haccount⟩ := r.accounts h.fromSource.stepless
    exact haccount.trace
  · exact ⟨hsound.trace hmoment, depth_le_of_trace hdepth hmoment⟩

def fullCanvas : Canvas := ⟨640, 480, Array.replicate Canvas.capacity .fill⟩

/-- A machine on a full canvas that was resized and then measured anew. -/
def onResizedCanvas : Machine Canvas :=
  { initial "" fullCanvas 7 with surface := fullCanvas.resize 100 50 }.updateSize

theorem session_onResizedCanvas : Session (fullCanvas.resize 100 50) onResizedCanvas := by
  have hexchange : Session fullCanvas
      { initial "" fullCanvas 7 with surface := fullCanvas.resize 100 50 } :=
    .exchange (.start "" fullCanvas 7) _
  exact hexchange.updateSize

/-- Drawing on it ends in an error, and the machine is sound afterwards, with the new extents. -/
theorem sound_after_error_onResizedCanvas :
    Session (fullCanvas.resize 100 50) onResizedCanvas ∧
      (interpret ⟨"fill", []⟩ onResizedCanvas).1 = .fatal Canvas.full ∧
      Sound (fullCanvas.resize 100 50) (interpret ⟨"fill", []⟩ onResizedCanvas).2 ∧
      (interpret ⟨"fill", []⟩ onResizedCanvas).2.depth = 0 := by
  have hfull : onResizedCanvas.surface.commands.size = Canvas.capacity := by
    simp only [onResizedCanvas, updateSize, fullCanvas, Canvas.resize, Array.size_replicate]
  have hserved := session_onResizedCanvas.serve (.interpret ⟨"fill", []⟩)
  rw [Request.serve] at hserved
  obtain ⟨hsound, hdepth, -⟩ := session_keeps_sound hserved
  exact ⟨session_onResizedCanvas, interpret_fill_of_full hfull, hsound, hdepth⟩

end Machine

end PenMachine
