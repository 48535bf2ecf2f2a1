import PenMachine.Statement

/-!
# Two ways of ignoring case

Operations are looked up by their names in lower case, over all of Unicode. Recording, leaving and
echoing test the name of an instruction up to the case of ASCII letters. The two agree on every
ASCII name in lower case that has no `k` (`Text.lower_eq_iff`): the Kelvin sign is the only other
character whose lower case is one ASCII character, and the dotted capital I leaves its dot behind.
Names that are the same up to ASCII case are the same in lower case, whatever their letters are
(`Text.lower_eq_of_same`).

The names of operations are plain in this sense, but for `strk`. So an instruction makes a statement
of any other operation just when it has one of its names up to ASCII case and the right parameters
(`Statement.ofInstruction_eq_ok_iff_is`). In particular the text of a program can be cut into
functions without looking anything up.
-/

namespace PenMachine

namespace Text

/-- The code points that a run leads to. -/
def CaseRun.Leaves (run : CaseRun) : Prop :=
  0x80 ≤ run.first + run.offset ∧ run.last + run.offset < 0x110000 ∧
    (run.last + run.offset < 0xd800 ∨ 0xdfff < run.first + run.offset)

instance (run : CaseRun) : Decidable run.Leaves := by
  unfold CaseRun.Leaves
  infer_instance

/-- Every run but that of the Kelvin sign stays outside ASCII. -/
theorem caseRuns_leave : ∀ run ∈ caseRuns,
    run.Leaves ∨ run.first = 0x212a ∧ run.last = 0x212a ∧ run.offset = -8383 := by
  decide +kernel

theorem toNat_ofNat_of_valid {n : Nat} (h : n.isValidChar) : (Char.ofNat n).toNat = n := by
  rw [Char.ofNat, dif_pos h]
  rfl

/-- The first character of the lower case of a character outside ASCII is outside ASCII too, or it
is one of the two letters that are reached from there. -/
theorem head_lowerChar {c : Char} (h : ¬ c.toNat < 0x80) :
    ∃ x rest, lowerChar c = x :: rest ∧
      (¬ x.toNat < 0x80 ∨ x = 'k' ∨ rest = [Char.ofNat 0x307]) := by
  unfold lowerChar
  rw [if_neg h]
  split
  · exact ⟨_, _, rfl, .inr (.inr rfl)⟩
  · split
    · rename_i run hrun
      have hmem := List.mem_of_find?_eq_some hrun
      have hcontains := List.find?_some hrun
      simp only [CaseRun.contains, Bool.and_eq_true, decide_eq_true_eq] at hcontains
      refine ⟨_, _, rfl, ?_⟩
      rcases caseRuns_leave run hmem with hleaves | ⟨hfirst, hlast, hoffset⟩
      · left
        obtain ⟨hlow, hhigh, hgap⟩ := hleaves
        have hvalid : (c.toNat + run.offset).toNat.isValidChar := by
          unfold Nat.isValidChar
          omega
        rw [toNat_ofNat_of_valid hvalid]
        omega
      · have hcode : c.toNat = 0x212a := by omega
        rw [hcode, hoffset]
        exact .inr (.inl rfl)
    · exact ⟨c, [], rfl, .inl h⟩

/-- In ASCII the two ways of ignoring case are the same. -/
theorem lowerChar_of_ascii {c : Char} (h : c.toNat < 0x80) : lowerChar c = [c.toLower] := by
  rw [lowerChar, if_pos h]

theorem ascii_of_toLower {c : Char} (h : c.toLower.toNat < 0x80) : c.toNat < 0x80 := by
  delta Char.toLower at h
  split at h
  · rename_i hupper
    exact Nat.lt_of_le_of_lt (UInt32.le_iff_toNat_le.1 hupper.2) (by decide)
  · exact h

theorem ascii_toLower {c : Char} (h : c.toNat < 0x80) : c.toLower.toNat < 0x80 := by
  delta Char.toLower
  split
  · rename_i hupper
    have hle : c.toNat ≤ 90 := UInt32.le_iff_toNat_le.1 hupper.2
    change (c.val + 32).toNat < 0x80
    rw [UInt32.toNat_add]
    change (c.toNat + 32) % 2 ^ 32 < 0x80
    omega
  · exact h

theorem toLower_of_not_ascii {c : Char} (h : ¬ c.toNat < 0x80) : c.toLower = c := by
  delta Char.toLower
  split
  · rename_i hupper
    exact absurd (Nat.lt_of_le_of_lt (UInt32.le_iff_toNat_le.1 hupper.2) (by decide)) h
  · rfl

/-- Characters that differ in ASCII case at most have the same lower case. Outside ASCII they do not
differ at all. -/
theorem lowerChar_eq_of_toLower {c c' : Char} (h : c.toLower = c'.toLower) :
    lowerChar c = lowerChar c' := by
  by_cases hascii : c.toNat < 0x80
  · have hascii' : c'.toNat < 0x80 := ascii_of_toLower (h ▸ ascii_toLower hascii)
    rw [lowerChar_of_ascii hascii, lowerChar_of_ascii hascii', h]
  · have hascii' : ¬ c'.toNat < 0x80 := fun h' ↦ hascii (ascii_of_toLower (h ▸ ascii_toLower h'))
    rw [toLower_of_not_ascii hascii, toLower_of_not_ascii hascii'] at h
    rw [h]

/-- Character by character, so texts have the same lower case too. -/
theorem flatMap_lowerChar_eq_of_toLower {text text' : List Char}
    (h : text.map Char.toLower = text'.map Char.toLower) :
    text.flatMap lowerChar = text'.flatMap lowerChar := by
  induction text generalizing text' with
  | nil =>
    obtain rfl : text' = [] := List.map_eq_nil_iff.1 h.symm
    rfl
  | cons c rest ih =>
    cases text' with
    | nil => cases h
    | cons c' rest' =>
      obtain ⟨hc, hrest⟩ := List.cons.inj h
      rw [List.flatMap_cons, List.flatMap_cons, lowerChar_eq_of_toLower hc, ih hrest]

/-- What is the same up to ASCII case is the same in lower case. -/
theorem lower_eq_of_same {a b : String} (h : sameIgnoringCase a b = true) :
    lower a = lower b := by
  rw [sameIgnoringCase, beq_iff_eq] at h
  rw [lower, lower, flatMap_lowerChar_eq_of_toLower h]

/-- Whether a character stands for itself in both ways of ignoring case. -/
def IsPlain (c : Char) : Prop := c.toNat < 0x80 ∧ c.toLower = c ∧ c ≠ 'k'

instance (c : Char) : Decidable (IsPlain c) :=
  inferInstanceAs (Decidable (c.toNat < 0x80 ∧ c.toLower = c ∧ c ≠ 'k'))

/-- The induction is on the text. A character outside ASCII has a lower case that no plain name
starts with. -/
theorem flatMap_lowerChar_eq_iff {text name : List Char} (hname : ∀ c ∈ name, IsPlain c) :
    text.flatMap lowerChar = name ↔ text.map Char.toLower = name := by
  induction text generalizing name with
  | nil => simp
  | cons c rest ih =>
    rw [List.flatMap_cons, List.map_cons]
    by_cases hascii : c.toNat < 0x80
    · rw [lowerChar_of_ascii hascii]
      cases name with
      | nil => simp
      | cons x name =>
        simp only [List.singleton_append, List.cons.injEq]
        rw [ih fun c hc ↦ hname c (List.mem_cons_of_mem x hc)]
    · obtain ⟨x, more, hlower, hx⟩ := head_lowerChar hascii
      rw [hlower]
      constructor
      · intro heq
        exfalso
        subst heq
        have hplain := hname x (by simp)
        rcases hx with hx | hx | hx
        · exact hx hplain.1
        · exact hplain.2.2 hx
        · have hdot := hname (Char.ofNat 0x307) (by simp [hx])
          exact absurd hdot.1 (by decide)
      · intro heq
        subst heq
        exact absurd (ascii_of_toLower (hname c.toLower (by simp)).1) hascii

/-- On a plain name the lower case of a text and its letters up to ASCII case agree. -/
theorem lower_eq_iff {text name : String} (hname : ∀ c ∈ name.toList, IsPlain c) :
    lower text = name ↔ sameIgnoringCase text name = true := by
  have hself : name.toList.map Char.toLower = name.toList := by
    rw [List.map_congr_left (g := id) fun c hc ↦ (hname c hc).2.1, List.map_id]
  rw [sameIgnoringCase, hself, beq_iff_eq, ← flatMap_lowerChar_eq_iff hname, lower]
  constructor
  · intro h
    rw [← h, String.toList_ofList]
  · intro h
    rw [h, String.ofList_toList]

end Text

/-! ## Operations by name -/

namespace Operation

/-- No name stands in the table twice. -/
theorem ofName?_of_mem_table : ∀ entry ∈ table, ofName? entry.1 = some entry.2 := by
  decide

theorem ofName?_eq_some_iff {name : String} {operation : Operation} :
    ofName? name = some operation ↔ (name, operation) ∈ table := by
  constructor
  · intro h
    obtain ⟨before, after, htable, -⟩ := List.lookup_eq_some_iff.1 h
    rw [htable]
    simp
  · exact ofName?_of_mem_table (name, operation)

/-- All names but one are plain. -/
theorem isPlain_of_mem_table {entry : String × Operation} (hmem : entry ∈ table)
    (hname : entry.1 ≠ "strk") : ∀ c ∈ entry.1.toList, Text.IsPlain c := by
  have hall : ∀ entry ∈ table, entry.1 = "strk" ∨
      entry.1.toList.all (fun c ↦ decide (Text.IsPlain c)) = true := by
    decide
  have hplain := (hall entry hmem).resolve_left hname
  simpa only [List.all_eq_true, decide_eq_true_eq] using hplain

theorem stroke_of_mem_table : ∀ entry ∈ table, entry.1 = "strk" → entry.2 = stroke := by
  decide

/-- Whether an operation has this name and no other, and no Kelvin sign can stand in it. -/
def HasOnlyName (operation : Operation) (name : String) : Prop :=
  operation ≠ .stroke ∧ table.filter (·.2 = operation) = [(name, operation)]

instance (operation : Operation) (name : String) : Decidable (operation.HasOnlyName name) :=
  inferInstanceAs (Decidable (_ ∧ _))

theorem HasOnlyName.mem_table_iff {operation : Operation} {name : String}
    (h : operation.HasOnlyName name) (other : String) :
    (other, operation) ∈ table ↔ other = name := by
  calc (other, operation) ∈ table
      ↔ (other, operation) ∈ table.filter (·.2 = operation) := by simp
    _ ↔ other = name := by simp [h.2]

theorem hasOnlyName_callWhen (condition : Condition) :
    HasOnlyName (callWhen condition) ("c" ++ condition.suffix) := by
  cases condition <;> decide

theorem hasOnlyName_setWhen (condition : Condition) :
    HasOnlyName (setWhen condition) ("s" ++ condition.suffix) := by
  cases condition <;> decide

end Operation

namespace Instruction

variable {i : Instruction} {name : String} {operation : Operation}

/-- The operation that an instruction is carried out as. -/
def operation? (i : Instruction) : Option Operation := Operation.ofName? (Text.lower i.operation)

theorem is_operation (i : Instruction) : i.is i.operation = true := beq_self_eq_true _

/-- An instruction that ends the program is no operation. -/
theorem isEof_of_is (h : i.is name = true) (hname : Text.sameIgnoringCase "EOF" name = false) :
    i.isEof = false := by
  rw [← Bool.not_eq_true]
  intro heof
  rw [isEof, beq_iff_eq] at heof
  rw [is, heof, hname] at h
  cases h

/-- In the table an instruction is found under a name just when it has this name up to ASCII
case. -/
theorem lower_eq_iff_is (hmem : (name, operation) ∈ Operation.table) (hname : name ≠ "strk") :
    Text.lower i.operation = name ↔ i.is name = true :=
  Text.lower_eq_iff (Operation.isPlain_of_mem_table hmem hname)

/-- An instruction is carried out as an operation just when it has one of its names up to ASCII
case. -/
theorem operation?_eq_some_iff (h : operation ≠ .stroke) :
    i.operation? = some operation ↔
      ∃ name, (name, operation) ∈ Operation.table ∧ i.is name = true := by
  have hne {name : String} (hmem : (name, operation) ∈ Operation.table) : name ≠ "strk" :=
    fun hname ↦ h (Operation.stroke_of_mem_table _ hmem hname)
  rw [operation?, Operation.ofName?_eq_some_iff]
  constructor
  · intro hmem
    exact ⟨_, hmem, (lower_eq_iff_is hmem (hne hmem)).1 rfl⟩
  · rintro ⟨name, hmem, his⟩
    rw [(lower_eq_iff_is hmem (hne hmem)).2 his]
    exact hmem

/-- An instruction is carried out as an operation with a single name just when it has that name up
to ASCII case. -/
theorem operation?_eq_iff_is (h : operation.HasOnlyName name) :
    i.operation? = some operation ↔ i.is name = true := by
  simp [operation?_eq_some_iff h.1, h.mem_table_iff]

theorem operation?_eq_func_iff : i.operation? = some .func ↔ i.is "func" = true :=
  operation?_eq_iff_is (by decide)

end Instruction

namespace Statement

/-- The operation that a statement is made by. -/
def operation : Statement → Operation
  | .set .. => .set
  | .del .. => .del
  | .print .. => .print
  | .func .. => .func
  | .call .. => .call
  | .ret .. => .ret
  | .dump => .dump
  | .operate op .. => .operate op
  | .update op .. => .update op
  | .compare .. => .compare
  | .callWhen condition .. => .callWhen condition
  | .setWhen condition .. => .setWhen condition
  | .path .. => .path
  | .fill => .fill
  | .stroke => .stroke
  | .move .. => .move
  | .line .. => .line
  | .width .. => .width
  | .color .. => .color

/-- The words that a statement is made of. -/
def operands : Statement → List String
  | .dump | .fill | .stroke => []
  | .del word | .ret word | .path word | .width word => [word]
  | .set left right | .operate _ left right | .update _ left right | .compare left right
  | .setWhen _ left right | .move left right | .line left right => [left, right]
  | .print words => words
  | .func word words | .call word words | .callWhen _ word words | .color word words =>
    word :: words

variable {i : Instruction} {name : String} {operation : Operation}

/-- A statement keeps its operation and all of the parameters. -/
theorem eq_of_statement? {params : List String} {s : Statement}
    (h : operation.statement? params = some s) : s.operation = operation ∧ s.operands = params := by
  unfold Operation.statement? at h
  split at h
  -- A colour may have too many parts. The other operations take what they match.
  case h_19 =>
    split at h
    · cases h
      exact ⟨rfl, rfl⟩
    · cases h
  all_goals cases h
  all_goals exact ⟨rfl, rfl⟩

/-- A statement can be made again of its words. A colour is left out, which may have too many of
them. -/
theorem statement?_operands {s : Statement} (h : s.operation ≠ .color) :
    s.operation.statement? s.operands = some s := by
  cases s with
  | color => exact absurd rfl h
  | _ => rfl

theorem ofInstruction_of_operation? (h : i.operation? = some operation) :
    ofInstruction i = match operation.statement? i.params with
      | none => .error (.argumentCount i.params.length i.operation)
      | some statement => .ok statement := by
  rw [Instruction.operation?] at h
  cases hstatement : operation.statement? i.params with
  | none => simp [ofInstruction, h, hstatement]
  | some statement => simp [ofInstruction, h, hstatement]

/-- A statement is made by the operation that the instruction is carried out as. -/
theorem ofInstruction_eq_ok_iff {s : Statement} :
    ofInstruction i = .ok s ↔
      i.operation? = some s.operation ∧ s.operation.statement? i.params = some s := by
  constructor
  · intro h
    unfold ofInstruction at h
    split at h
    · cases h
    · rename_i operation hoperation
      split at h
      · cases h
      · rename_i statement hstatement
        cases h
        rw [(eq_of_statement? hstatement).1]
        exact ⟨hoperation, hstatement⟩
  · rintro ⟨hoperation, hstatement⟩
    rw [ofInstruction_of_operation? hoperation, hstatement]

/-- An instruction makes a statement just when it has the name of the operation up to ASCII case and
the right parameters. -/
theorem ofInstruction_eq_ok_iff_is {s : Statement} (operation : Operation)
    (hs : s.operation = operation) (hname : operation.HasOnlyName name)
    (hcolor : operation ≠ .color) :
    ofInstruction i = .ok s ↔ i.is name = true ∧ i.params = s.operands := by
  subst hs
  rw [ofInstruction_eq_ok_iff, Instruction.operation?_eq_iff_is hname]
  refine and_congr_right fun _ ↦ ⟨fun h ↦ (eq_of_statement? h).2.symm, ?_⟩
  intro hparams
  rw [hparams, statement?_operands hcolor]

theorem ofInstruction_eq_func_iff {argNames : List String} :
    ofInstruction i = .ok (.func name argNames) ↔
      i.is "func" = true ∧ i.params = name :: argNames :=
  ofInstruction_eq_ok_iff_is .func rfl (by decide) (by decide)

theorem ofInstruction_eq_call_iff {args : List String} :
    ofInstruction i = .ok (.call name args) ↔ i.is "call" = true ∧ i.params = name :: args :=
  ofInstruction_eq_ok_iff_is .call rfl (by decide) (by decide)

theorem ofInstruction_eq_set_iff {value : String} :
    ofInstruction i = .ok (.set name value) ↔ i.is "set" = true ∧ i.params = [name, value] :=
  ofInstruction_eq_ok_iff_is .set rfl (by decide) (by decide)

/-- A `func` without a name is refused for that. -/
theorem ofInstruction_func (h : i.is "func" = true) :
    ofInstruction i = match i.params with
      | [] => .error (.argumentCount 0 i.operation)
      | name :: argNames => .ok (.func name argNames) := by
  rw [ofInstruction_of_operation? (Instruction.operation?_eq_func_iff.2 h)]
  cases i.params <;> rfl

end Statement

end PenMachine
