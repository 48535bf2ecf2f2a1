import PenMachine.Proofs.Names
import PenMachine.Terminal.Console

/-!
# Tests of names and the lookup

An instruction is carried out as the operation that its name leads to in lower case. A body is left
at `ret`, recording stops at `func`, and the console echoes `call` and `set` and gathers lines from
`func` on, all by tests of the name up to the case of ASCII letters. The two never disagree on an
instruction (`Terminal.lookup_agrees_with_name_tests`), because the names of the operations are made
of plain letters. The name `strk` is the exception. Its `k` may be a Kelvin sign for the lookup, but
not for a test; no test asks for it.

The lower case of a capital sigma depends on the letters around it. `Text.lower` leaves this choice
out, and the result does not depend on it: it holds of every key that is the lower case of the name
up to the forms of its small sigmas.
-/

namespace PenMachine

namespace Text

/-- The usual form of a small sigma in the place of the one that ends words. -/
def plainSigma (c : Char) : Char := if c = Char.ofNat 0x3c2 then Char.ofNat 0x3c3 else c

/-- Whether texts are the same up to the forms of their small sigmas. -/
def SameButSigma (a b : String) : Prop := a.toList.map plainSigma = b.toList.map plainSigma

theorem plainSigma_eq_iff {c x : Char} (hx : IsPlain x) : plainSigma c = x ↔ c = x := by
  unfold plainSigma
  split
  · rename_i hc
    have hsigma : ¬ IsPlain (Char.ofNat 0x3c3) := by decide
    have hfinal : ¬ IsPlain (Char.ofNat 0x3c2) := by decide
    constructor
    · rintro rfl
      exact absurd hx hsigma
    · rintro rfl
      rw [hc] at hx
      exact absurd hx hfinal
  · exact Iff.rfl

/-- A plain name has no sigma in it. -/
theorem map_plainSigma_eq_iff {text name : List Char} (hname : ∀ c ∈ name, IsPlain c) :
    text.map plainSigma = name ↔ text = name := by
  induction text generalizing name with
  | nil => simp
  | cons c rest ih =>
    cases name with
    | nil => simp
    | cons x name =>
      rw [List.map_cons, List.cons.injEq, List.cons.injEq,
        plainSigma_eq_iff (hname x List.mem_cons_self),
        ih fun c hc ↦ hname c (List.mem_cons_of_mem x hc)]

/-- The forms of sigmas are no matter for plain names. -/
theorem SameButSigma.eq_iff {a b name : String} (h : SameButSigma a b)
    (hname : ∀ c ∈ name.toList, IsPlain c) : a = name ↔ b = name := by
  rw [← String.toList_inj, ← map_plainSigma_eq_iff hname, h, map_plainSigma_eq_iff hname,
    String.toList_inj]

end Text

namespace Operation

theorem exists_of_mem_names {name : String} (h : name ∈ names) :
    ∃ operation, (name, operation) ∈ table := by
  rw [names, List.mem_mergeSort, List.mem_map] at h
  obtain ⟨⟨_, operation⟩, hmem, rfl⟩ := h
  exact ⟨operation, hmem⟩

end Operation

namespace Instruction

variable {i : Instruction}

theorem operation?_eq_ret_iff : i.operation? = some .ret ↔ i.is "ret" = true :=
  operation?_eq_iff_is (by decide)

theorem operation?_eq_call_iff : i.operation? = some .call ↔ i.is "call" = true :=
  operation?_eq_iff_is (by decide)

theorem operation?_eq_set_iff : i.operation? = some .set ↔ i.is "set" = true :=
  operation?_eq_iff_is (by decide)

end Instruction

end PenMachine

namespace PenMachine.Terminal

open Machine

/-- Whether every test of an instruction's name goes by the operation that it is carried out as. -/
structure TestedAsCarriedOut (i : Instruction) : Prop where
  leaving : ∀ {σ : Type} (perform : Instruction → Machine σ → Outcome × Machine σ)
    (rest : List Instruction) (m : Machine σ),
    runBody perform (i :: rest) m =
      match perform i m with
      | (.fatal error, m) => (some error, m)
      | (_, m) => if i.operation? = some .ret then (none, m) else runBody perform rest m
  recording : ∀ (text rest : List Char) (body : List Instruction), Source.next text = (i, rest) →
    recordBody text body =
      if i.isEof then .complete body.reverse rest
      else if i.operation? = some .func then
        if i.params.head?.any (Text.sameIgnoringCase · "end") then .complete body.reverse rest
        else .nested rest
      else recordBody rest (i :: body)
  echoing : ∀ {σ : Type} (m : Machine σ),
    feedback m i =
      if i.operation? = some .call then some (m.registers.get .ret).toText
      else if i.operation? = some .set then
        i.params.head?.bind fun name ↦ (m.vars.get? name).map Number.toText
      else none
  gathering : ∀ line : String, firstInstruction? line = some i →
    (lineStartsFunction line = true ↔ i.operation? = some .func ∧
      i.params.head?.any (Text.sameIgnoringCase · "end") = false) ∧
    (lineEndsFunction line = true ↔ i.operation? = some .func ∧
      i.params.head?.any (Text.sameIgnoringCase · "end") = true)

/-- Each test asks for a name that one operation has, and that one only. -/
theorem testedAsCarriedOut (i : Instruction) : TestedAsCarriedOut i where
  leaving perform rest m := by
    rw [runBody]
    rcases perform i m with ⟨outcome, m₁⟩
    cases outcome with
    | fatal error => rfl
    | eof | executed | failed => simp only [Instruction.operation?_eq_ret_iff]
  recording text rest body hnext := by
    rw [recordBody]
    cases hfunc : i.is "func" with
    | true => simp [hnext, Instruction.operation?_eq_func_iff, hfunc, endsFunction]
    | false => simp [hnext, Instruction.operation?_eq_func_iff, hfunc]
  echoing m := by
    simp only [feedback, Instruction.operation?_eq_call_iff, Instruction.operation?_eq_set_iff]
  gathering line hline := by
    rw [Instruction.operation?_eq_func_iff, lineStartsFunction, lineEndsFunction, hline]
    cases hfunc : i.is "func" with
    | true => simp [hfunc, endsFunction]
    | false => simp [hfunc, endsFunction]

/-- The two ways to match a name agree. On every name of an operation but `strk`, the name of an
instruction in lower case is this name just when it is so up to ASCII case, whichever forms its
small sigmas take. So an instruction is carried out as an operation other than `strk` just when it
has one of the operation's names up to ASCII case. In particular it becomes a `ret`, `func`, `call`
or `set` just when the tests take it for one and its parameters fit, and the tests themselves go by
the operation that it is carried out as. -/
theorem lookup_agrees_with_name_tests (i : Instruction) :
    (∀ name ∈ Operation.names, name ≠ "strk" →
      (Text.lower i.operation = name ↔ i.is name = true) ∧
      ∀ key, Text.SameButSigma key (Text.lower i.operation) →
        (key = name ↔ i.is name = true)) ∧
    (∀ operation : Operation, operation ≠ .stroke →
      (i.operation? = some operation ↔
        ∃ name, (name, operation) ∈ Operation.table ∧ i.is name = true)) ∧
    (∀ value, Statement.ofInstruction i = .ok (.ret value) ↔
      i.is "ret" = true ∧ i.params = [value]) ∧
    (∀ name argNames, Statement.ofInstruction i = .ok (.func name argNames) ↔
      i.is "func" = true ∧ i.params = name :: argNames) ∧
    (∀ name args, Statement.ofInstruction i = .ok (.call name args) ↔
      i.is "call" = true ∧ i.params = name :: args) ∧
    (∀ name value, Statement.ofInstruction i = .ok (.set name value) ↔
      i.is "set" = true ∧ i.params = [name, value]) ∧
    TestedAsCarriedOut i := by
  refine ⟨fun name hmem hname ↦ ?_, fun operation ↦ Instruction.operation?_eq_some_iff,
    fun _ ↦ Statement.ofInstruction_eq_ok_iff_is .ret rfl (by decide) (by decide),
    fun _ _ ↦ Statement.ofInstruction_eq_func_iff, fun _ _ ↦ Statement.ofInstruction_eq_call_iff,
    fun _ _ ↦ Statement.ofInstruction_eq_set_iff, testedAsCarriedOut i⟩
  obtain ⟨operation, hentry⟩ := Operation.exists_of_mem_names hmem
  have hkey : Text.lower i.operation = name ↔ i.is name = true :=
    Instruction.lower_eq_iff_is hentry hname
  refine ⟨hkey, fun key hsame ↦ ?_⟩
  rw [hsame.eq_iff (Operation.isPlain_of_mem_table hentry hname), hkey]

/-- The dotted capital I keeps its dot in lower case and is no `i` for the tests. -/
theorem line_withDottedI_not_found :
    "line" ∈ Operation.names ∧ "line" ≠ "strk" ∧
      Instruction.is ⟨"L\u0130NE", []⟩ "line" = false ∧ Text.lower "L\u0130NE" ≠ "line" := by
  have hmem : "line" ∈ Operation.names := by
    rw [Operation.names, List.mem_mergeSort]
    decide
  have hname : "line" ≠ "strk" := by decide
  have htest : Instruction.is ⟨"L\u0130NE", []⟩ "line" = false := by decide
  obtain ⟨hkeys, -⟩ := lookup_agrees_with_name_tests ⟨"L\u0130NE", []⟩
  refine ⟨hmem, hname, htest, fun hlower ↦ ?_⟩
  rw [(hkeys "line" hmem hname).1.1 hlower] at htest
  cases htest

/-- The Kelvin sign is why `strk` is left out. -/
example : Text.lower "str\u212a" = "strk" ∧ Instruction.is ⟨"str\u212a", []⟩ "strk" = false := by
  decide

end PenMachine.Terminal
