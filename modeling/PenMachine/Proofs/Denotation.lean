import PenMachine.Proofs.Lasting
import PenMachine.Proofs.NumberGrammar
import PenMachine.Proofs.Session

/-!
# What words denote

A word is a number, the name of a register or the name of a variable, and no word is two of these.
No number has a `$` in it, the name of a register starts with a `$` that no dot follows, and the
name of a variable starts with a `$` and a dot. The first two hold of all words; the last is kept by
whatever happens to a machine (`Machine.sound_vars_of_arises`).

To look up a word within a range, the machine goes on from one meaning to the next when the value
falls outside. Since there is no second meaning, this only ever ends in the value itself or in
nothing (`Machine.resolve_eq`), and a demand for a number is decided by that one value
(`Machine.demand_eq`).
-/

namespace PenMachine

namespace Number

theorem isNaN_of_isWithin {x low high : Number} (h : x.isWithin low high = true) :
    x.isNaN = false := by
  cases x with
  | nan =>
    cases low <;> cases h
  | infinity | finite => rfl

theorem eq_nan_of_isNaN {x : Number} (h : x.isNaN = true) : x = .nan := by
  cases x with
  | nan => rfl
  | infinity | finite => cases h

theorem isWithin_iff {x low high : Number} : x.isWithin low high = true ↔
    x.isNaN = false ∧ low.le x = true ∧ x.le high = true := by
  constructor
  · intro h
    exact ⟨isNaN_of_isWithin h, Bool.and_eq_true_iff.1 h⟩
  · rintro ⟨-, h⟩
    exact Bool.and_eq_true_iff.2 h

/-- The widest range leaves out NaN only. -/
theorem isWithin_infinity (x : Number) :
    x.isWithin (.infinity true) (.infinity false) = !x.isNaN := by
  cases x with
  | nan => rfl
  | infinity negative => cases negative <;> rfl
  | finite => rfl

/-- Every number is within the infinities, and for a NaN it is no matter. -/
theorem ite_isWithin_infinity (x : Number) :
    (if x.isWithin (.infinity true) (.infinity false) then x else .nan) = x := by
  rw [isWithin_infinity]
  cases hnan : x.isNaN with
  | true => simp [eq_nan_of_isNaN hnan]
  | false => simp

end Number

/-- No number has a `$` in it. -/
theorem Literal.Grammatical.sigil_notMem {text : List Char} (h : Grammatical text) :
    '$' ∉ text := by
  intro hmem
  cases h with
  | blank => cases hmem
  | infinity signed =>
    rcases List.mem_append.1 hmem with hsign | hword
    · exact absurd (signed.plain '$' hsign) (by decide)
    · exact absurd hword (by decide)
  | integer known marked _ plain =>
    have hradixes : ∀ entry ∈ radixes, '$' ∉ entry.2.1.toList ∧ '$' ∉ entry.2.2.toList := by
      decide +kernel
    obtain ⟨hmarks, halphabet⟩ := hradixes _ known
    rcases List.mem_cons.1 hmem with heq | hmem
    · exact absurd heq (by decide)
    · rcases List.mem_cons.1 hmem with rfl | hdigit
      · exact hmarks marked
      · exact halphabet (plain '$' hdigit)
  | decimal signed valued scaled =>
    exact absurd (isDecimalChar_of_mem signed valued scaled hmem) (by decide)

theorem mem_of_hasSigil {word : String} (h : hasSigil word = true) : '$' ∈ word.toList :=
  List.mem_of_mem_head? (beq_iff_eq.1 h)

/-- Blanks are all that is trimmed, so a `$` would still stand in the number. -/
theorem Number.parse_of_hasSigil {word : String} (h : hasSigil word = true) :
    Number.parse word = .nan := by
  apply eq_nan_of_isNaN
  rw [isNaN_parse, Option.isNone_iff_eq_none, ← Option.not_isSome_iff_eq_none]
  intro hsome
  obtain ⟨left, right, hcut, hblank⟩ := (Text.trims_trim word.toList).cut
  have hmem : '$' ∈ left ++ Text.trim word.toList ++ right := hcut ▸ mem_of_hasSigil h
  have hoff : '$' ∉ left ++ right := by
    intro hmem
    exact absurd (hblank '$' hmem) (by decide)
  have htrim : '$' ∈ Text.trim word.toList := by
    simp only [List.mem_append] at hmem hoff
    tauto
  exact (Literal.grammatical_of_isSome hsome).sigil_notMem htrim

namespace Register

theorem ofName?_name (r : Register) : ofName? r.name = some r := by
  cases r <;> decide

/-- No two registers have the same name. -/
theorem ofName?_eq_some_iff {word : String} {r : Register} :
    ofName? word = some r ↔ r.name = word := by
  constructor
  · intro h
    simpa using List.find?_some h
  · rintro rfl
    exact ofName?_name r

theorem hasSigil_name (r : Register) : hasSigil r.name = true := by
  cases r <;> decide

/-- No register is named like a variable. -/
theorem name_not_dotted (r : Register) : ¬ ['$', '.'] <+: r.name.toList := by
  cases r <;> decide

end Register

theorem hasSigil_of_dotted {name : String} (h : ['$', '.'] <+: name.toList) :
    hasSigil name = true := by
  obtain ⟨rest, hrest⟩ := h
  rw [hasSigil, ← hrest]
  rfl

variable {σ : Type}

namespace Machine

variable {m : Machine σ} {word : String} {n : Number}

/-- What is held under a name, NaN if there is nothing of that name. -/
def held (m : Machine σ) (word : String) : Number :=
  match Register.ofName? word with
  | some r => m.registers.get r
  | none => (m.vars.get? word).getD .nan

theorem resolve_of_hasSigil (h : hasSigil word = true) (low high : Number) :
    m.resolve word low high = if (m.held word).isWithin low high then m.held word else .nan := by
  have hoff : (Number.nan).isWithin low high = false := by
    cases hwithin : (Number.nan).isWithin low high with
    | true => cases Number.isNaN_of_isWithin hwithin
    | false => rfl
  simp only [resolve, Number.parse_of_hasSigil h, hoff, h, if_true]
  rfl

theorem resolve_of_not_hasSigil (h : hasSigil word = false) (low high : Number) :
    m.resolve word low high =
      if (Number.parse word).isWithin low high then Number.parse word else .nan := by
  simp [resolve, h]

theorem valueOf_of_hasSigil (h : hasSigil word = true) : m.valueOf word = m.held word := by
  rw [valueOf, resolve_of_hasSigil h, Number.ite_isWithin_infinity]

theorem valueOf_of_not_hasSigil (h : hasSigil word = false) :
    m.valueOf word = Number.parse word := by
  rw [valueOf, resolve_of_not_hasSigil h, Number.ite_isWithin_infinity]

/-- Within a range a word has its value or none. -/
theorem resolve_eq (m : Machine σ) (word : String) (low high : Number) :
    m.resolve word low high =
      if (m.valueOf word).isWithin low high then m.valueOf word else .nan := by
  cases hsigil : hasSigil word with
  | true => rw [resolve_of_hasSigil hsigil, valueOf_of_hasSigil hsigil]
  | false => rw [resolve_of_not_hasSigil hsigil, valueOf_of_not_hasSigil hsigil]

/-- What a demand comes to is decided by the value of the word. -/
theorem demand_eq (m : Machine σ) (word : String) (message : Option String) (low high : Number)
    (level : Level) :
    m.demand word message low high level =
      if (m.valueOf word).isWithin low high then .ok (m.valueOf word)
      else if (m.valueOf word).isNaN then .error (.notNumeric message level)
      else .error (.outOfRange message low high) := by
  rw [demand, resolve_eq]
  cases hwithin : (m.valueOf word).isWithin low high with
  | true => simp [Number.isNaN_of_isWithin hwithin]
  | false => simp [Number.isNaN]

/-- What is demanded of a word within a range is within that range. -/
theorem isWithin_of_demand {message : Option String} {low high : Number} {level : Level}
    (h : m.demand word message low high level = .ok n) : n.isWithin low high = true := by
  rw [demand_eq] at h
  split at h
  · rename_i hwithin
    cases h
    exact hwithin
  · split at h
    · cases h
    · cases h

theorem isNaN_of_number (h : m.number word = .ok n) : n.isNaN = false :=
  Number.isNaN_of_isWithin (isWithin_of_demand h)

theorem answer_demand_of_isWithin {message : Option String} {low high : Number} {level : Level}
    (h : (m.valueOf word).isWithin low high = true) :
    m.answer (m.demand word message low high level) = (.ok (m.valueOf word), m) := by
  rw [demand_eq, if_pos h]
  rfl

/-- A number that is out of range is an error, whatever level was asked for; that level is for words
that denote none. -/
theorem answer_demand_of_not_isWithin {low high : Number}
    (h : (m.valueOf word).isWithin low high = false) (message : Option String) (level : Level) :
    ∃ fault : Fault,
      m.answer (m.demand word message low high level) = (.error fault, m.report fault) ∧
      fault.level = (if (m.valueOf word).isNaN then level else .error) ∧
      fault.text = message.getD (if (m.valueOf word).isNaN then "Numeric value expected" else
        "Numeric value within " ++ low.toText ++ " to " ++ high.toText ++ " expected") := by
  rw [demand_eq, h]
  cases (m.valueOf word).isNaN with
  | true => exact ⟨.notNumeric message level, rfl, rfl, rfl⟩
  | false => exact ⟨.outOfRange message low high, rfl, rfl, rfl⟩

/-- What a word denotes, be it a number, a register or a variable. Every other word denotes NaN. -/
inductive Denotes (m : Machine σ) (word : String) : Number → Prop where
  | written (number : (Number.parse word).isNaN = false) : Denotes m word (Number.parse word)
  | register {r : Register} (named : r.name = word) : Denotes m word (m.registers.get r)
  | stored {value : Number} (found : m.vars.get? word = some value) : Denotes m word value
  | nothing (noNumber : (Number.parse word).isNaN = true)
    (noRegister : ∀ r : Register, r.name ≠ word) (noVariable : m.vars.contains word = false) :
    Denotes m word .nan

theorem hasSigil_of_contains (hm : m.vars.Sound) (h : m.vars.contains word = true) :
    hasSigil word = true :=
  hasSigil_of_dotted (hm.named word h)

theorem name_ne_of_contains (hm : m.vars.Sound) (h : m.vars.contains word = true)
    (r : Register) : r.name ≠ word := by
  rintro rfl
  exact r.name_not_dotted (hm.named _ h)

/-- What is no register may be a variable. -/
theorem held_of_not_register (h : ∀ r : Register, r.name ≠ word) :
    m.held word = (m.vars.get? word).getD .nan := by
  cases hname : Register.ofName? word with
  | some r => exact absurd (Register.ofName?_eq_some_iff.1 hname) (h r)
  | none => rw [held, hname]

theorem valueOf_of_denotes (hm : m.vars.Sound) (h : m.Denotes word n) : m.valueOf word = n := by
  cases h with
  | written number =>
    apply valueOf_of_not_hasSigil
    rw [Bool.eq_false_iff]
    intro hsigil
    rw [Number.parse_of_hasSigil hsigil] at number
    cases number
  | @register r named =>
    subst named
    rw [valueOf_of_hasSigil r.hasSigil_name, held, Register.ofName?_name]
  | stored found =>
    have hcontains := Variables.contains_of_get? found
    rw [valueOf_of_hasSigil (hasSigil_of_contains hm hcontains),
      held_of_not_register (name_ne_of_contains hm hcontains), found, Option.getD_some]
  | nothing noNumber noRegister noVariable =>
    cases hsigil : hasSigil word with
    | false => rw [valueOf_of_not_hasSigil hsigil, Number.eq_nan_of_isNaN noNumber]
    | true =>
      have hnone : m.vars.get? word = none := by
        rw [Variables.contains] at noVariable
        simpa [Variables.get?] using noVariable
      rw [valueOf_of_hasSigil hsigil, held_of_not_register noRegister, hnone, Option.getD_none]

/-- Every word denotes something, if only NaN. -/
theorem exists_denotes (m : Machine σ) (word : String) : ∃ n, m.Denotes word n := by
  by_cases hwritten : (Number.parse word).isNaN = false
  · exact ⟨_, .written hwritten⟩
  · by_cases hregister : ∃ r : Register, r.name = word
    · obtain ⟨r, hr⟩ := hregister
      exact ⟨_, .register hr⟩
    · cases hfound : m.vars.get? word with
      | some value => exact ⟨value, .stored hfound⟩
      | none =>
        refine ⟨.nan, .nothing (by simpa using hwritten) (by simpa using hregister) ?_⟩
        rw [Variables.get?] at hfound
        simpa [Variables.contains] using hfound

/-- A word denotes its value and nothing else. -/
theorem denotes_iff (hm : m.vars.Sound) : m.Denotes word n ↔ n = m.valueOf word := by
  constructor
  · intro h
    exact (valueOf_of_denotes hm h).symm
  · rintro rfl
    obtain ⟨n, h⟩ := exists_denotes m word
    rwa [valueOf_of_denotes hm h]

end Machine

/-- The machines that can arise, also in the middle of a request, and whatever functions the
embedding program has added. -/
inductive Arises [Surface σ] : Machine σ → Prop where
  | initial (source : String) (surface : σ) (seed : UInt64) : Arises (.initial source surface seed)
  | serve {m : Machine σ} (h : Arises m) (r : Request) : Arises (r.serve m)
  | event {m : Machine σ} (h : Arises m) {e : Event} (allowed : e.Allowed m) : Arises (e.apply m)
  | define {m : Machine σ} (h : Arises m) (f : Function) : Arises (m.define f)
  | updateSize {m : Machine σ} (h : Arises m) : Arises m.updateSize
  | takeMessages {m : Machine σ} (h : Arises m) : Arises m.takeMessages.2
  | exchange {m : Machine σ} (h : Arises m) (surface : σ) : Arises { m with surface }

namespace Machine

variable [Surface σ] {m : Machine σ}

theorem sound_vars_apply {e : Event} (allowed : e.Allowed m) (h : m.vars.Sound) :
    (e.apply m).vars.Sound := by
  cases e with
  | setVariable name value => exact h.insert allowed.1 allowed.2 value
  | removeVariable name => exact h.erase name
  | _ => exact h

theorem lasting_vars : Lasting fun m m' : Machine σ ↦ m.vars.Sound → m'.vars.Sound where
  refl _ h := h
  trans h₁ h₂ h := h₂ (h₁ h)
  event allowed _ h := sound_vars_apply allowed h
  draw {m _ commands} _ h := by
    rw [drawAll_eq]
    exact h
  next _ h := h
  nested _ h := h
  depth _ _ h := h

/-- Nothing that can happen to a machine spoils its variables. -/
theorem sound_vars_of_arises (h : Arises m) : m.vars.Sound := by
  induction h with
  | initial => exact .initial
  | serve _ r ih =>
    cases r with
    | reset => exact ih
    | step => exact lasting_vars.along_step _ ih
    | run => exact lasting_vars.along_runWithin _ _ _ ih
    | interpret i => exact lasting_vars.along_interpret i _ ih
  | event _ allowed ih => exact sound_vars_apply allowed ih
  | define | updateSize | takeMessages | exchange => assumption

/-- No word has two meanings. A word's value is what it denotes, and a demand for a number answers
with it just when it is a number in the range, leaving the machine as it is. Otherwise there is one
message, at the level that was asked for if the word denotes no number and as an error if the
number is out of range, the answer is a fault with the same text, and nothing else changes. -/
theorem coercion_is_exact (h : Arises m) (word : String) :
    ¬ ((Number.parse word).isNaN = false ∧ ∃ r : Register, r.name = word) ∧
    ¬ ((Number.parse word).isNaN = false ∧ m.vars.contains word = true) ∧
    ¬ ((∃ r : Register, r.name = word) ∧ m.vars.contains word = true) ∧
    ∃ den, (∀ n, m.Denotes word n ↔ n = den) ∧ m.valueOf word = den ∧
      ∀ (message : Option String) (low high : Number) (level : Level),
        let answer := m.answer (m.demand word message low high level)
        let fits := den.isNaN = false ∧ low.le den = true ∧ den.le high = true
        (∀ n m', answer = (.ok n, m') ↔ fits ∧ n = den ∧ m' = m) ∧
        (¬ fits → ∃ fault text,
          answer = (.error fault, { m with transcript :=
            ⟨m.transcript.lines.push ⟨if den.isNaN then level else .error, text⟩⟩ }) ∧
          fault.toError = ⟨.assertionFailed, text⟩ ∧
          text = message.getD (if den.isNaN then "Numeric value expected" else
            "Numeric value within " ++ low.toText ++ " to " ++ high.toText ++ " expected")) := by
  have hm := sound_vars_of_arises h
  have hnumber (hsigil : hasSigil word = true) : (Number.parse word).isNaN = true := by
    rw [Number.parse_of_hasSigil hsigil]
    rfl
  refine ⟨?_, ?_, ?_, m.valueOf word, fun n ↦ denotes_iff hm, rfl, ?_⟩
  · rintro ⟨hwritten, r, rfl⟩
    simp [hnumber r.hasSigil_name] at hwritten
  · rintro ⟨hwritten, hcontains⟩
    simp [hnumber (hasSigil_of_contains hm hcontains)] at hwritten
  · rintro ⟨⟨r, hr⟩, hcontains⟩
    exact name_ne_of_contains hm hcontains r hr
  · intro message low high level answer fits
    have hfits : fits ↔ (m.valueOf word).isWithin low high = true := by
      rw [Number.isWithin_iff]
    refine ⟨fun n m' ↦ ?_, fun hoff ↦ ?_⟩
    · rw [hfits]
      cases hwithin : (m.valueOf word).isWithin low high with
      | true =>
        have hanswer : answer = (.ok (m.valueOf word), m) := answer_demand_of_isWithin hwithin
        simp [hanswer, eq_comm]
      | false =>
        obtain ⟨fault, hanswer, -, -⟩ := answer_demand_of_not_isWithin hwithin message level
        have hrefused : answer = (.error fault, m.report fault) := hanswer
        simp [hrefused]
    · have hwithin : (m.valueOf word).isWithin low high = false := by
        rw [Bool.eq_false_iff, Ne, ← hfits]
        exact hoff
      obtain ⟨fault, hanswer, hlevel, htext⟩ :=
        answer_demand_of_not_isWithin hwithin message level
      refine ⟨fault, fault.text, ?_, rfl, htext⟩
      rw [← hlevel]
      exact hanswer

def withNaN : Machine Canvas := (fresh "").setRegister .div .nan

theorem arises_withNaN : Arises withNaN := by
  have hfresh : Arises (fresh "") := .initial _ _ _
  exact hfresh.event (e := .setRegister .div .nan) (.inr (.inl ⟨.div, rfl⟩))

theorem coercion_withNaN :
    Arises withNaN ∧
    withNaN.answer (withNaN.demand "$w" none 0 1000 .warn) = (.ok 640, withNaN) ∧
    (∃ fault text, withNaN.answer (withNaN.demand "$w" none 0 100 .warn) =
      (.error fault, { withNaN with transcript := ⟨#[⟨.error, text⟩]⟩ }) ∧
      fault.toError = ⟨.assertionFailed, text⟩) ∧
    ∃ fault, withNaN.answer (withNaN.demand "$div" (some "No number") 0 100 .warn) =
      (.error fault, { withNaN with transcript := ⟨#[⟨.warn, "No number"⟩]⟩ }) := by
  obtain ⟨-, -, -, width, hwidth, -, hdemandWidth⟩ := coercion_is_exact arises_withNaN "$w"
  obtain ⟨-, -, -, quotient, hquotient, -, hdemand⟩ := coercion_is_exact arises_withNaN "$div"
  have hheldWidth : withNaN.registers.get .w = 640 := by
    simp [withNaN, setRegister, fresh, initial, Registers.initial, Registers.get_set, Surface.width,
      Canvas.empty]
  have hheldQuotient : withNaN.registers.get .div = .nan := by
    simp [withNaN, setRegister, Registers.get_set]
  have hfull : width = 640 := ((hwidth _).1 (.register rfl)).symm.trans hheldWidth
  have hnan : quotient = .nan := ((hquotient _).1 (.register rfl)).symm.trans hheldQuotient
  rw [hfull] at hdemandWidth
  rw [hnan] at hdemand
  refine ⟨arises_withNaN, ?_, ?_, ?_⟩
  · exact ((hdemandWidth none 0 1000 .warn).1 640 withNaN).2 ⟨by decide +kernel, rfl, rfl⟩
  · obtain ⟨fault, text, hanswer, herror, -⟩ :=
      (hdemandWidth none 0 100 .warn).2 (by decide +kernel)
    have hnumber : (640 : Number).isNaN = false := by decide +kernel
    rw [hnumber] at hanswer
    exact ⟨fault, text, hanswer, herror⟩
  · obtain ⟨fault, text, hanswer, -, rfl⟩ :=
      (hdemand (some "No number") 0 100 .warn).2 (by decide +kernel)
    exact ⟨fault, hanswer⟩

end Machine

end PenMachine
