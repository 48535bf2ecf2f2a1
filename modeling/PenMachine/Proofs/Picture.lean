import Mathlib.Data.List.DropRight
import PenMachine.Canvas.Svg
import PenMachine.Proofs.PrintedNumbers

/-!
# The meaning of a picture

A document is written in one pass, with a pen in hand that every command may change. Here each
element is described by its place alone, looking back over the commands before it: the path is what
has been added since the last `begin`, and a style is the last one of its kind (`Svg.element?`). The
pen after some commands holds just what looking back would find (`Svg.penBehind_concat`), so the
pass writes the elements place by place (`Svg.foldl_write`). The pen keeps the path as one text with
a space behind every segment. As no segment ends in a blank, trimming that text takes off the last
space and no more, and leaves the segments with spaces between them (`Svg.trimRight_spaced`).
-/

namespace PenMachine.Svg

/-- What stands for a character inside an attribute. -/
def entity (c : Char) : String :=
  if c = '&' then "&amp;"
  else if c = '"' then "&quot;"
  else if c = '<' then "&lt;"
  else if c = '>' then "&gt;"
  else String.singleton c

/-- A text with every character replaced at once. -/
def escaped (text : String) : String :=
  String.ofList (text.toList.flatMap fun c ↦ (entity c).toList)

/-- No pass touches what an earlier one has put in. -/
theorem escape_eq (text : String) : escape text = escaped text := by
  unfold escape escaped replaceChar
  simp only [List.flatMap_assoc]
  congr 2
  funext c
  by_cases hc : c = '&' ∨ c = '"' ∨ c = '<' ∨ c = '>'
  · rcases hc with rfl | rfl | rfl | rfl <;> decide
  · simp only [not_or] at hc
    obtain ⟨hamp, hquot, hless, hgreater⟩ := hc
    simp only [entity, if_neg hamp, if_neg hquot, if_neg hless, if_neg hgreater,
      List.flatMap_singleton, String.toList_singleton]

/-- What a command adds to the path, if it adds anything. -/
def segment? : Command → Option String
  | .move x y => some s!"M {x.toText} {y.toText}"
  | .line x y => some s!"L {x.toText} {y.toText}"
  | .close => some "Z"
  | _ => none

def width? : Command → Option Number
  | .width value => some value
  | _ => none

def strokeStyle? : Command → Option Color
  | .strokeStyle color => some color
  | _ => none

def fillStyle? : Command → Option Color
  | .fillStyle color => some color
  | _ => none

/-- The segments since the last `begin`, or since the start if there is none. -/
def segments (before : List Command) : List String :=
  (before.rtakeWhile (· ≠ .begin)).filterMap segment?

/-- The last setting of a kind, and the given one if there is none. -/
def latest {α : Type} (setting? : Command → Option α) (first : α) (before : List Command) : α :=
  (before.filterMap setting?).getLastD first

/-- The element that a command paints behind others. -/
def element? (before : List Command) : Command → Option String
  | .stroke =>
    if segments before = [] then none
    else some <| "  <path d=\"" ++ " ".intercalate (segments before) ++
      "\" fill=\"none\" stroke=\"" ++
      escaped (latest strokeStyle? (.named "black") before).toText ++ "\" stroke-width=\"" ++
      (latest width? 1 before).toText ++ "\"/>\n"
  | .fill =>
    if segments before = [] then none
    else some <| "  <path d=\"" ++ " ".intercalate (segments before) ++ "\" fill=\"" ++
      escaped (latest fillStyle? (.named "black") before).toText ++ "\" stroke=\"none\"/>\n"
  | _ => none

def elementAt? (commands : List Command) (i : Nat) : Option String :=
  commands[i]?.bind (element? (commands.take i))

/-- The elements of a list of commands, in order of their places. -/
def elements (commands : List Command) : List String :=
  (List.range commands.length).filterMap (elementAt? commands)

/-- A `begin` throws the path away, and another command may add to it. -/
theorem segments_concat (before : List Command) (command : Command) :
    segments (before ++ [command]) =
      if command = .begin then [] else segments before ++ (segment? command).toList := by
  unfold segments
  rw [List.rtakeWhile_concat]
  by_cases h : command = .begin
  · simp [h]
  · rw [if_pos (by simpa using h), if_neg h, List.filterMap_append, List.filterMap_cons]
    cases segment? command <;> rfl

/-- A newer setting takes the place of the older ones. -/
theorem latest_concat {α : Type} (setting? : Command → Option α) (first : α)
    (before : List Command) (command : Command) :
    latest setting? first (before ++ [command]) =
      (setting? command).getD (latest setting? first before) := by
  unfold latest
  rw [List.filterMap_append]
  cases h : setting? command with
  | none => simp [h]
  | some setting => simp [h]

def spaced (parts : List String) : String := String.join (parts.map (· ++ " "))

/-- A space behind each segment is one between any two and one at the end. -/
theorem spaced_eq_intercalate {parts : List String} (h : parts ≠ []) :
    spaced parts = " ".intercalate parts ++ " " := by
  induction parts with
  | nil => exact absurd rfl h
  | cons part rest ih =>
    cases rest with
    | nil => simp [spaced]
    | cons next rest =>
      have hrest : spaced (part :: next :: rest) = part ++ " " ++ spaced (next :: rest) := by
        simp [spaced]
      rw [hrest, ih (by simp), String.intercalate_cons_cons]
      simp only [String.append_assoc]

/-- Whether a text ends in a character other than a blank. -/
def EndsPlain (text : List Char) : Prop :=
  ∃ (before : List Char) (c : Char), text = before ++ [c] ∧ Text.isBlank c = false

theorem EndsPlain.append {text : List Char} (h : EndsPlain text) (before : List Char) :
    EndsPlain (before ++ text) := by
  obtain ⟨middle, c, rfl, hc⟩ := h
  exact ⟨before ++ middle, c, by simp, hc⟩

theorem endsPlain_toText (n : Number) : EndsPlain n.toText.toList := by
  have hne : n.toText.toList ≠ [] := by
    intro hnil
    exact n.toText_ne_empty (String.toList_eq_nil_iff.1 hnil)
  exact ⟨_, _, (List.dropLast_append_getLast hne).symm,
    Number.isBlank_of_mem_toText (List.getLast_mem hne)⟩

theorem endsPlain_segment {command : Command} {text : String} (h : segment? command = some text) :
    EndsPlain text.toList := by
  cases command with
  | move x y | line x y =>
    cases h
    simp only [String.toList_append]
    exact (endsPlain_toText y).append _
  | close =>
    cases h
    exact ⟨[], 'Z', rfl, by decide⟩
  | _ => cases h

theorem endsPlain_intercalate {parts : List String} (hne : parts ≠ [])
    (h : ∀ part ∈ parts, EndsPlain part.toList) : EndsPlain (" ".intercalate parts).toList := by
  induction parts with
  | nil => exact absurd rfl hne
  | cons part rest ih =>
    cases rest with
    | nil => simpa using h part
    | cons next rest =>
      rw [String.intercalate_cons_cons, String.toList_append]
      exact (ih (by simp) fun part' hpart' ↦ h part' (List.mem_cons_of_mem part hpart')).append _

/-- Without the space at their end, spaced segments have the spaces between them. -/
theorem trimRight_spaced {parts : List String} (h : ∀ part ∈ parts, EndsPlain part.toList) :
    Text.trimRight (spaced parts).toList = (" ".intercalate parts).toList := by
  have htrim (text : List Char) : Text.trimRight text = text.rdropWhile Text.isBlank := rfl
  rw [htrim]
  by_cases hne : parts = []
  · subst hne
    rfl
  · obtain ⟨before, c, hplain, hc⟩ := endsPlain_intercalate hne h
    rw [spaced_eq_intercalate hne, String.toList_append, hplain]
    have hspace : " ".toList = [' '] := rfl
    rw [hspace, List.rdropWhile_concat_pos _ _ _ (by decide),
      List.rdropWhile_concat_neg _ _ _ (by simp [hc])]

theorem spaced_eq_empty_iff {parts : List String} : spaced parts = "" ↔ parts = [] := by
  constructor
  · intro h
    by_contra hne
    rw [spaced_eq_intercalate hne] at h
    simp at h
  · rintro rfl
    rfl

/-- The pen that looking back would find. -/
def penBehind (before : List Command) : Pen where
  path := spaced (segments before)
  width := latest width? 1 before
  strokeStyle := latest strokeStyle? (.named "black") before
  fillStyle := latest fillStyle? (.named "black") before

/-- One more command moves the pen as it does in the pass over the commands. -/
theorem penBehind_concat (before : List Command) (command : Command) :
    penBehind (before ++ [command]) = (penBehind before).apply command := by
  unfold penBehind
  simp only [segments_concat, latest_concat]
  cases command <;>
    simp [Pen.apply, spaced, segment?, width?, strokeStyle?, fillStyle?, String.append_assoc,
      toString]

/-- The trimmed path has the segments with single spaces between them. -/
theorem trimmedPath_penBehind (before : List Command) :
    (penBehind before).trimmedPath = " ".intercalate (segments before) := by
  have hplain : ∀ part ∈ segments before, EndsPlain part.toList := by
    intro part hpart
    obtain ⟨command, -, hsegment⟩ := List.mem_filterMap.1 hpart
    exact endsPlain_segment hsegment
  rw [Pen.trimmedPath, penBehind, trimRight_spaced hplain, String.ofList_toList]

/-- The pen writes the elements that looking back finds. -/
theorem element?_penBehind (before : List Command) (command : Command) :
    (penBehind before).element? command = element? before command := by
  have hempty : (penBehind before).path.isEmpty = true ↔ segments before = [] := by
    rw [String.isEmpty_iff]
    exact spaced_eq_empty_iff
  cases command with
  | stroke | fill =>
    simp only [Pen.element?, element?, hempty, trimmedPath_penBehind, escape_eq]
    rfl
  | _ => rfl

/-- What comes later is not looked at. -/
theorem elementAt?_append (commands later : List Command) {i : Nat} (h : i < commands.length) :
    elementAt? (commands ++ later) i = elementAt? commands i := by
  rw [elementAt?, elementAt?, List.getElem?_append_left h, List.take_append_of_le_length h.le]

/-- The elements that more commands add come behind those that are there. -/
theorem elements_append (commands later : List Command) :
    elements (commands ++ later) = elements commands ++
      (List.range' commands.length later.length).filterMap (elementAt? (commands ++ later)) := by
  have hrange : List.range (commands.length + later.length) =
      List.range commands.length ++ List.range' commands.length later.length := by
    rw [List.range_eq_range', List.range_eq_range', ← List.range'_append_1, Nat.zero_add]
  have hfirst : (List.range commands.length).filterMap (elementAt? (commands ++ later)) =
      (List.range commands.length).filterMap (elementAt? commands) := by
    apply List.filterMap_congr
    intro i hi
    exact elementAt?_append commands later (List.mem_range.1 hi)
  rw [elements, List.length_append, hrange, List.filterMap_append, hfirst]
  rfl

theorem elements_concat (commands : List Command) (command : Command) :
    elements (commands ++ [command]) = elements commands ++ (element? commands command).toList := by
  have hlast : elementAt? (commands ++ [command]) commands.length = element? commands command := by
    simp [elementAt?]
  rw [elements_append, List.length_singleton, List.range'_one, List.filterMap_cons, hlast]
  cases element? commands command <;> rfl

/-- The pass over the commands, with everything that is in hand after it. -/
theorem foldl_write (commands : List Command) (out : String) :
    commands.foldl (fun (pen, out) command ↦ pen.write out command) (Pen.initial, out) =
      (penBehind commands, out ++ String.join (elements commands)) := by
  induction commands using List.reverseRecOn with
  | nil =>
    have helements : String.join (elements []) = "" := rfl
    rw [helements, String.append_empty]
    rfl
  | append_singleton commands command ih =>
    rw [List.foldl_concat, ih]
    dsimp only [Pen.write]
    rw [penBehind_concat, element?_penBehind, elements_concat, String.join_append]
    cases element? commands command <;> simp [String.append_assoc]

/-- Whether a place holds a segment that no `begin` has ended. -/
def Open (before : List Command) (j : Nat) : Prop :=
  (∃ command, before[j]? = some command ∧ (segment? command).isSome = true) ∧
    ∀ k, j < k → before[k]? ≠ some .begin

theorem open_length_iff (before : List Command) (command : Command) :
    Open (before ++ [command]) before.length ↔ (segment? command).isSome = true := by
  unfold Open
  constructor
  · rintro ⟨⟨_, hplace, hsegment⟩, -⟩
    rw [List.getElem?_concat_length] at hplace
    rwa [Option.some.inj hplace]
  · intro h
    refine ⟨⟨command, List.getElem?_concat_length, h⟩, fun k hk ↦ ?_⟩
    have hend : (before ++ [command]).length ≤ k := by simpa using Nat.succ_le_of_lt hk
    simp [List.getElem?_eq_none hend]

theorem open_concat_iff (before : List Command) (command : Command) {j : Nat}
    (hj : j < before.length) :
    Open (before ++ [command]) j ↔ Open before j ∧ command ≠ .begin := by
  unfold Open
  rw [List.getElem?_append_left hj]
  constructor
  · rintro ⟨hsegment, hlater⟩
    refine ⟨⟨hsegment, fun k hk hbegin ↦ ?_⟩, ?_⟩
    · have hlt : k < before.length := (List.getElem?_eq_some_iff.1 hbegin).1
      rw [← List.getElem?_append_left hlt] at hbegin
      exact hlater k hk hbegin
    · rintro rfl
      exact hlater before.length hj List.getElem?_concat_length
  · rintro ⟨⟨hsegment, hlater⟩, hcommand⟩
    refine ⟨hsegment, fun k hk ↦ ?_⟩
    rcases Nat.lt_trichotomy k before.length with hlt | rfl | hgt
    · rw [List.getElem?_append_left hlt]
      exact hlater k hk
    · rw [List.getElem?_concat_length]
      simpa using hcommand
    · have hend : (before ++ [command]).length ≤ k := by simpa using Nat.succ_le_of_lt hgt
      simp [List.getElem?_eq_none hend]

theorem Open.lt {before : List Command} {j : Nat} (h : Open before j) : j < before.length := by
  obtain ⟨⟨_, hplace, -⟩, -⟩ := h
  exact (List.getElem?_eq_some_iff.1 hplace).1

/-- There is a path to paint just when some segment is still open. -/
theorem segments_ne_nil_iff (before : List Command) :
    segments before ≠ [] ↔ ∃ j, Open before j := by
  induction before using List.reverseRecOn with
  | nil => simp [segments, Open]
  | append_singleton before command ih =>
    have hsplit : (∃ j, Open (before ++ [command]) j) ↔
        (segment? command).isSome = true ∨ (∃ j, Open before j) ∧ command ≠ .begin := by
      constructor
      · rintro ⟨j, hj⟩
        have hlt := hj.lt
        rw [List.length_append, List.length_singleton] at hlt
        rcases Nat.lt_succ_iff_lt_or_eq.1 hlt with hlt | rfl
        · obtain ⟨hopen, hcommand⟩ := (open_concat_iff before command hlt).1 hj
          exact .inr ⟨⟨j, hopen⟩, hcommand⟩
        · exact .inl ((open_length_iff before command).1 hj)
      · rintro (hsegment | ⟨⟨j, hj⟩, hcommand⟩)
        · exact ⟨_, (open_length_iff before command).2 hsegment⟩
        · exact ⟨j, (open_concat_iff before command hj.lt).2 ⟨hj, hcommand⟩⟩
    rw [hsplit, ← ih, segments_concat]
    by_cases hbegin : command = .begin
    · subst hbegin
      simp [segment?]
    · cases hsegment : segment? command with
      | none => simp [hbegin]
      | some segment => simp [hbegin]

/-- There is an element where something is stroked or filled with a path that is open. -/
theorem isSome_elementAt?_iff (commands : List Command) (i : Nat) :
    (elementAt? commands i).isSome = true ↔
      (commands[i]? = some .stroke ∨ commands[i]? = some .fill) ∧
        ∃ j, Open (commands.take i) j := by
  rw [← segments_ne_nil_iff]
  unfold elementAt?
  cases hcommand : commands[i]? with
  | none => simp
  | some command =>
    cases command with
    | stroke | fill => by_cases hpath : segments (commands.take i) = [] <;> simp [element?, hpath]
    | _ => simp [element?]

/-- A document is its header, the elements in order of their places, and its footer. There is an
element just at those places that stroke or fill and have an open segment before them. More commands
change none of the elements that are there, and theirs come behind. -/
theorem document_lists_painted_paths (canvas : Canvas) :
    document canvas = header canvas.width canvas.height ++
      String.join (elements canvas.commands.toList) ++ footer ∧
    (∀ i, (elementAt? canvas.commands.toList i).isSome = true ↔
      (canvas.commands[i]? = some .stroke ∨ canvas.commands[i]? = some .fill) ∧
        ∃ j, Open (canvas.commands.toList.take i) j) ∧
    ∀ later : List Command,
      (∀ i < canvas.commands.size, elementAt? (canvas.commands.toList ++ later) i =
        elementAt? canvas.commands.toList i) ∧
      ∃ added, elements (canvas.commands.toList ++ later) =
        elements canvas.commands.toList ++ added := by
  refine ⟨?_, fun i ↦ ?_, fun later ↦ ⟨fun i hi ↦ ?_, _, elements_append _ later⟩⟩
  · rw [document, ← Array.foldl_toList, foldl_write]
  · rw [isSome_elementAt?_iff, Array.getElem?_toList]
  · exact elementAt?_append _ later (by simpa using hi)

-- A path can be painted again as it grows, and `begin` ends the path but keeps the styles.
example : elements [.fill, .fillStyle (.named "a&\"b"), .close, .fill, .close, .fill, .begin, .fill,
      .close, .fill] =
    ["  <path d=\"Z\" fill=\"a&amp;&quot;b\" stroke=\"none\"/>\n",
      "  <path d=\"Z Z\" fill=\"a&amp;&quot;b\" stroke=\"none\"/>\n",
      "  <path d=\"Z\" fill=\"a&amp;&quot;b\" stroke=\"none\"/>\n"] := by
  decide +kernel

end PenMachine.Svg
