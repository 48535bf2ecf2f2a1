import PenMachine.Machine.Interpreter

/-!
# What a plan can come to

Every check that a statement has to pass is made by `Machine.plan`, which changes nothing. Whatever
is known of the action behind those checks is said here once, in the rules of `Plans`: which
register or variable is written, that the variable has room and a proper name, and that a function
that is called is in the table and takes the arguments. The rest of the theory works from
`Machine.plans_of_plan` and does not open a plan again.
-/

namespace PenMachine

theorem bind_eq_ok_iff {ε α β : Type} {x : Except ε α} {f : α → Except ε β} {b : β} :
    x >>= f = .ok b ↔ ∃ a, x = .ok a ∧ f a = .ok b := by
  cases x with
  | error e => simp [bind, Except.bind]
  | ok a => simp [bind, Except.bind]

theorem map_eq_ok_iff {ε α β : Type} {x : Except ε α} {f : α → β} {b : β} :
    f <$> x = .ok b ↔ ∃ a, x = .ok a ∧ f a = b := by
  cases x with
  | error e => simp [Functor.map, Except.map]
  | ok a => simp [Functor.map, Except.map]

theorem length_of_mapM_eq_ok {ε α β : Type} {f : α → Except ε β} {l : List α} {values : List β}
    (h : l.mapM f = .ok values) : values.length = l.length := by
  induction l generalizing values with
  | nil =>
    cases h
    rfl
  | cons x rest ih =>
    rw [List.mapM_cons] at h
    obtain ⟨value, -, h⟩ := bind_eq_ok_iff.1 h
    obtain ⟨more, hmore, h⟩ := bind_eq_ok_iff.1 h
    cases h
    simp [ih hmore]

variable {σ : Type}

/-- The actions that a statement can come to, each with what the checks have made sure of. -/
inductive Plans (m : Machine σ) : Statement → Action → Prop where
  | set {name value : String} {n : Number} (room : m.vars.hasRoom name = true)
    (named : isVariableName name = true) : Plans m (.set name value) (.setVariable name n)
  | del {name : String} (found : m.vars.contains name = true) :
    Plans m (.del name) (.removeVariable name)
  | print (words : List String) : Plans m (.print words) (.log [m.shownWords words])
  | func {name : String} {argNames : List String}
    (unreserved : Text.sameIgnoringCase name "end" = false)
    (named : ∀ argName ∈ argNames, Machine.isArgumentName argName = true) :
    Plans m (.func name argNames) (.record name argNames)
  | call {name : String} {args : List String} {f : Function} {values : List Number}
    (found : m.functions[name]? = some f) (fits : f.arity.allows values.length = true)
    (valued : args.mapM m.number = .ok values) : Plans m (.call name args) (.invoke f values)
  | ret {value : String} {n : Number} (valued : m.number value = .ok n) :
    Plans m (.ret value) (.setRegister .ret n)
  | dump : Plans m .dump (.log (Machine.dumpLines m.registers))
  | operate {op : Operator} {left right : String} {x y : Number}
    (valuedLeft : m.number left = .ok x) (valuedRight : m.number right = .ok y) :
    Plans m (.operate op left right) (.setRegister op.register (op.apply x y))
  | update {op : Operator} {name right : String} {current n : Number}
    (found : m.vars.get? name = some current) (valued : m.number right = .ok n) :
    Plans m (.update op name right) (.setVariable name (op.apply current n))
  | compare (left right : String) :
    Plans m (.compare left right)
      (.setRegister .cmp (Flags.compare (m.valueOf left) (m.valueOf right)).toNumber)
  | callWhen {condition : Condition} {name : String} {args : List String} {a : Action}
    (holds : condition.holds m.registers.flags = true) (called : Plans m (.call name args) a) :
    Plans m (.callWhen condition name args) a
  | skipCall {condition : Condition} {name : String} {args : List String}
    (fails : condition.holds m.registers.flags = false) :
    Plans m (.callWhen condition name args) .skip
  | setWhen {condition : Condition} {name value : String} {a : Action}
    (holds : condition.holds m.registers.flags = true) (set : Plans m (.set name value) a) :
    Plans m (.setWhen condition name value) a
  | skipSet {condition : Condition} {name value : String}
    (fails : condition.holds m.registers.flags = false) :
    Plans m (.setWhen condition name value) .skip
  | path {verb : String} {command : Command} (known : command = .begin ∨ command = .close) :
    Plans m (.path verb) (.draw [command])
  | fill : Plans m .fill (.draw [.fill])
  | stroke : Plans m .stroke (.draw [.stroke])
  | move {x y : String} {p : Number × Number} (valued : m.coordinate x y = .ok p) :
    Plans m (.move x y) (.draw [.move p.1 p.2])
  | line {x y : String} {p : Number × Number} (valued : m.coordinate x y = .ok p) :
    Plans m (.line x y) (.draw [.line p.1 p.2, .stroke])
  | width {value : String} {n : Number}
    (valued : m.demand value (some "Line width must be a number of at least 0") 0 (.infinity false)
      .error = .ok n) : Plans m (.width value) (.draw [.width n])
  | strokeColor {parts : List String} {color : Color} (valued : m.colorOf parts = .ok color) :
    Plans m (.color "line" parts) (.draw [.strokeStyle color])
  | fillColor {parts : List String} {color : Color} (valued : m.colorOf parts = .ok color) :
    Plans m (.color "fill" parts) (.draw [.fillStyle color])

namespace Machine

variable {m : Machine σ} {a : Action}

/-- A variable that is set has a proper name, and there is room for it. -/
theorem plans_of_planSet {name value : String} (h : m.planSet name value = .ok a) :
    Plans m (.set name value) a := by
  unfold planSet at h
  split at h
  · cases h
  · split at h
    · cases h
    · rename_i hname
      obtain ⟨n, -, h⟩ := bind_eq_ok_iff.1 h
      split at h
      · rename_i hroom
        cases h
        exact .set hroom (by simpa using hname)
      · cases h

theorem plans_of_planRecord {name : String} {argNames : List String}
    (h : planRecord name argNames = .ok a) : Plans m (.func name argNames) a := by
  unfold planRecord at h
  split at h
  · cases h
  · rename_i hname
    split at h
    · cases h
    · rename_i hargs
      cases h
      exact .func (by simpa using hname) (by simpa using hargs)

/-- A function that is called is there, and takes so many arguments. -/
theorem plans_of_planCall {name : String} {args : List String}
    (h : m.planCall name args = .ok a) : Plans m (.call name args) a := by
  unfold planCall at h
  split at h
  · cases h
  · rename_i f hf
    split at h
    · rename_i harity
      obtain ⟨values, hvalues, rfl⟩ := map_eq_ok_iff.1 h
      rw [← length_of_mapM_eq_ok hvalues] at harity
      exact .call hf harity hvalues
    · cases h

/-- A variable that is updated is there, so it needs no room. -/
theorem plans_of_planUpdate {op : Operator} {name right : String}
    (h : m.planUpdate op name right = .ok a) : Plans m (.update op name right) a := by
  unfold planUpdate at h
  split at h
  · cases h
  · rename_i current hcurrent
    obtain ⟨n, hn, rfl⟩ := map_eq_ok_iff.1 h
    exact .update hcurrent hn

theorem plans_of_planPath {verb : String} (h : planPath verb = .ok a) :
    Plans m (.path verb) a := by
  unfold planPath at h
  split at h
  · cases h
    exact .path (.inl rfl)
  · cases h
    exact .path (.inr rfl)
  · cases h
    exact .path (.inr rfl)
  · cases h

theorem plans_of_planColor {target : String} {parts : List String}
    (h : m.planColor target parts = .ok a) : Plans m (.color target parts) a := by
  unfold planColor at h
  split at h
  · rename_i htarget
    obtain ⟨color, hcolor, rfl⟩ := map_eq_ok_iff.1 h
    subst htarget
    exact .strokeColor hcolor
  · split at h
    · rename_i htarget
      obtain ⟨color, hcolor, rfl⟩ := map_eq_ok_iff.1 h
      subst htarget
      exact .fillColor hcolor
    · cases h

/-- A statement comes to nothing else. -/
theorem plans_of_plan {s : Statement} (h : m.plan s = .ok a) : Plans m s a := by
  cases s with
  | set name value => exact plans_of_planSet h
  | del name =>
    simp only [plan, planRemove] at h
    split at h
    · rename_i hfound
      cases h
      exact .del hfound
    · cases h
  | print words =>
    cases h
    exact .print words
  | func name argNames => exact plans_of_planRecord h
  | call name args => exact plans_of_planCall h
  | ret value =>
    obtain ⟨n, hn, rfl⟩ := map_eq_ok_iff.1 h
    exact .ret hn
  | dump =>
    cases h
    exact .dump
  | operate op left right =>
    obtain ⟨x, hx, h⟩ := bind_eq_ok_iff.1 h
    obtain ⟨y, hy, h⟩ := bind_eq_ok_iff.1 h
    cases h
    exact .operate hx hy
  | update op name right => exact plans_of_planUpdate h
  | compare left right =>
    cases h
    exact .compare left right
  | callWhen condition name args =>
    simp only [plan] at h
    split at h
    · rename_i holds
      exact .callWhen holds (plans_of_planCall h)
    · rename_i fails
      cases h
      exact .skipCall (by simpa using fails)
  | setWhen condition name value =>
    simp only [plan] at h
    split at h
    · rename_i holds
      exact .setWhen holds (plans_of_planSet h)
    · rename_i fails
      cases h
      exact .skipSet (by simpa using fails)
  | path verb => exact plans_of_planPath h
  | fill =>
    cases h
    exact .fill
  | stroke =>
    cases h
    exact .stroke
  | move x y =>
    obtain ⟨p, hp, rfl⟩ := map_eq_ok_iff.1 h
    exact .move hp
  | line x y =>
    obtain ⟨p, hp, rfl⟩ := map_eq_ok_iff.1 h
    exact .line hp
  | width value =>
    obtain ⟨n, hn, rfl⟩ := map_eq_ok_iff.1 h
    exact .width hn
  | color target parts => exact plans_of_planColor h

/-- Only a call comes to invoking a function. -/
theorem call_of_plan_invoke {s : Statement} {f : Function} {args : List Number}
    (h : m.plan s = .ok (.invoke f args)) :
    ∃ name words, s = .call name words ∨ ∃ condition, s = .callWhen condition name words := by
  cases plans_of_plan h with
  | call => exact ⟨_, _, .inl rfl⟩
  | callWhen => exact ⟨_, _, .inr ⟨_, rfl⟩⟩
  | setWhen _ set => cases set

end Machine

/-- What the checks guarantee of an action, whatever statement came to it. -/
def Action.Allowed (m : Machine σ) : Action → Prop
  | .setRegister r value =>
    r = .ret ∨ (∃ op : Operator, r = op.register) ∨
      r = .cmp ∧ ∃ x y, value = (Flags.compare x y).toNumber
  | .setVariable name _ =>
    m.vars.hasRoom name = true ∧ (m.vars.contains name = true ∨ isVariableName name = true)
  | .removeVariable name => m.vars.contains name = true
  | .invoke f args =>
    ∃ name : String, m.functions[name]? = some f ∧ f.arity.allows args.length = true
  | _ => True

theorem Variables.contains_of_get? {vars : Variables} {name : String} {value : Number}
    (h : vars.get? name = some value) : vars.contains name = true := by
  rw [contains, ← Std.HashMap.isSome_getElem?_eq_contains]
  exact Option.isSome_of_mem h

/-- What is known of an action follows from the checks of its statement. -/
theorem Plans.allowed {m : Machine σ} {s : Statement} {a : Action} (h : Plans m s a) :
    a.Allowed m := by
  induction h with
  | set room named => exact ⟨room, .inr named⟩
  | del found => exact found
  | call found fits => exact ⟨_, found, fits⟩
  | ret => exact .inl rfl
  | operate => exact .inr (.inl ⟨_, rfl⟩)
  | update found =>
    -- A variable that is updated exists, so there is room to overwrite it.
    have hmem := Variables.contains_of_get? found
    exact ⟨by simp [Variables.hasRoom, hmem], .inl hmem⟩
  | compare => exact .inr (.inr ⟨rfl, _, _, rfl⟩)
  | callWhen _ _ ih => exact ih
  | setWhen _ _ ih => exact ih
  | _ => trivial

/-- A write that has passed the checks finds room, so it cannot end in an error. -/
theorem Machine.perform_setVariable [Surface σ] {m : Machine σ} {name : String} {value : Number}
    (h : (Action.setVariable name value).Allowed m) (step : Machine σ → Outcome × Machine σ)
    (deeper : Option (Instruction → Machine σ → Outcome × Machine σ)) (i : Instruction) :
    perform step deeper i m (.setVariable name value) =
      (.executed i, { m with vars := m.vars.insert name value }) := by
  rw [perform, Variables.store, if_pos h.1]
  rfl

namespace Machine

variable {m : Machine σ}

theorem getElem?_define_self (m : Machine σ) (f : Function) :
    (m.define f).functions[f.name]? = some f :=
  Std.HashMap.getElem?_insert_self

theorem getElem?_define_of_ne (m : Machine σ) (f : Function) {other : String}
    (h : other ≠ f.name) : (m.define f).functions[other]? = m.functions[other]? := by
  rw [define, Std.HashMap.getElem?_insert, if_neg (by simpa using h.symm)]

/-- A call without arguments invokes the function of the name, if it may have none. -/
theorem plan_call {name : String} {f : Function} (hf : m.functions[name]? = some f)
    (harity : f.arity.allows 0 = true) : m.plan (.call name []) = .ok (.invoke f []) := by
  simp only [plan, planCall, hf, List.length_nil, harity, if_true]
  rfl

end Machine

end PenMachine
