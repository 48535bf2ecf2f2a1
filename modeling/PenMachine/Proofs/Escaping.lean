import PenMachine.Proofs.Picture
import PenMachine.Proofs.PrintedNumbers

/-!
# What a reader sees in a picture

Escaped text holds no character that ends an attribute or a tag, and every ampersand in it starts an
entity. A reader who decodes the entities gets the text back, whatever it was (`Svg.decode_escape`).
So a tag that is written with escaped values is read with the values it was written with
(`Svg.tags_line`). The document of a canvas is written in this way, and a reader sees one tag for
every painted path, with the recorded colours.
-/

namespace PenMachine.Svg

/-- The entities that escaped text may hold. -/
def entities : List String := ["&amp;", "&quot;", "&lt;", "&gt;"]

/-- The text that a reader gets from the value of an attribute, entities decoded from left to
right. -/
def decode : List Char → List Char
  | '&' :: 'a' :: 'm' :: 'p' :: ';' :: rest => '&' :: decode rest
  | '&' :: 'q' :: 'u' :: 'o' :: 't' :: ';' :: rest => '"' :: decode rest
  | '&' :: 'l' :: 't' :: ';' :: rest => '<' :: decode rest
  | '&' :: 'g' :: 't' :: ';' :: rest => '>' :: decode rest
  | c :: rest => c :: decode rest
  | [] => []

def markup : List Char := ['&', '"', '<', '>']

theorem entity_of_notMem {c : Char} (h : c ∉ markup) : (entity c).toList = [c] := by
  simp only [markup, List.mem_cons, List.not_mem_nil, or_false, not_or] at h
  obtain ⟨hamp, hquot, hless, hgreater⟩ := h
  simp [entity, hamp, hquot, hless, hgreater]

/-- The four passes come to one replacement of every character. -/
theorem toList_escape (text : String) :
    (escape text).toList = text.toList.flatMap fun c ↦ (entity c).toList := by
  rw [escape_eq, escaped, String.toList_ofList]

theorem escape_of_plain {text : String} (h : ∀ c ∈ text.toList, c ∉ markup) :
    escape text = text := by
  have hsame : text.toList.flatMap (fun c ↦ (entity c).toList) = text.toList.flatMap ([·]) :=
    List.flatMap_congr fun c hc ↦ entity_of_notMem (h c hc)
  rw [escape_eq, escaped, hsame, List.flatMap_singleton', String.ofList_toList]

theorem notMem_entity {x : Char} (h : x ∈ ['"', '<', '>']) (c : Char) :
    x ∉ (entity c).toList := by
  by_cases hc : c ∈ markup
  · have hall : ∀ c ∈ markup, ['"', '<', '>'].all (· ∉ (entity c).toList) = true :=
      Text.forall_mem_of_all (by decide)
    exact Text.forall_mem_of_all (hall c hc) x h
  · rw [entity_of_notMem hc, List.mem_singleton]
    rintro rfl
    exact hc (List.mem_cons_of_mem _ h)

/-- Nothing in escaped text ends an attribute or a tag. -/
theorem notMem_escape {x : Char} (h : x ∈ ['"', '<', '>']) (text : String) :
    x ∉ (escape text).toList := by
  rw [toList_escape, List.mem_flatMap]
  rintro ⟨c, -, hc⟩
  exact notMem_entity h c hc

/-- Decoding takes one character back from the front. -/
theorem decode_entity (c : Char) (rest : List Char) :
    decode ((entity c).toList ++ rest) = c :: decode rest := by
  by_cases hc : c ∈ markup
  · simp only [markup, List.mem_cons, List.not_mem_nil, or_false] at hc
    rcases hc with rfl | rfl | rfl | rfl <;> rfl
  · have hamp : c ≠ '&' := by
      rintro rfl
      exact hc (by decide)
    rw [entity_of_notMem hc, List.singleton_append]
    conv_lhs => unfold decode
    split <;> simp_all

/-- A reader gets back what was escaped. -/
theorem decode_escape (text : String) : decode (escape text).toList = text.toList := by
  rw [toList_escape]
  induction text.toList with
  | nil => rfl
  | cons c rest ih => rw [List.flatMap_cons, decode_entity, ih]

theorem escape_injective : Function.Injective escape := by
  intro s t h
  rw [← String.toList_inj, ← decode_escape s, h, decode_escape t]

theorem ampersand_notMem_tail (c : Char) : '&' ∉ (entity c).toList.tail := by
  by_cases hc : c ∈ markup
  · have hall : ∀ c ∈ markup, '&' ∉ (entity c).toList.tail := Text.forall_mem_of_all (by decide)
    exact hall c hc
  · simp [entity_of_notMem hc]

/-- An ampersand in an escaped text starts an entity. -/
theorem entity_mem_of_ampersand {c : Char} (h : '&' ∈ (entity c).toList) : entity c ∈ entities := by
  by_cases hc : c ∈ markup
  · have hall : ∀ c ∈ markup, entity c ∈ entities := Text.forall_mem_of_all (by decide)
    exact hall c hc
  · rw [entity_of_notMem hc, List.mem_singleton] at h
    exact absurd (h ▸ (by decide : '&' ∈ markup)) hc

/-- Every ampersand of escaped text starts an entity: it stands first in what was put in for one
character. -/
theorem entity_prefix_of_ampersand (text before after : List Char)
    (h : text.flatMap (fun c ↦ (entity c).toList) = before ++ '&' :: after) :
    ∃ e ∈ entities, e.toList <+: '&' :: after := by
  induction text generalizing before with
  | nil => simp at h
  | cons c rest ih =>
    rw [List.flatMap_cons, List.append_eq_append_iff] at h
    rcases h with ⟨between, -, hrest⟩ | ⟨last, hentity, hlast⟩
    · exact ih between hrest
    · cases last with
      | nil => exact ih [] hlast.symm
      | cons x last =>
        obtain ⟨rfl, -⟩ : '&' = x ∧ _ := List.cons.inj hlast
        have hmem : '&' ∈ (entity c).toList := by simp [hentity]
        -- Were there anything before it, the ampersand would not be the first one.
        obtain rfl : before = [] := by
          cases before with
          | nil => rfl
          | cons first before =>
            have htail := ampersand_notMem_tail c
            rw [hentity] at htail
            simp at htail
        refine ⟨entity c, entity_mem_of_ampersand hmem, ?_⟩
        rw [hlast, hentity]
        exact List.prefix_append _ _

/-- A tag as a reader sees it: its name, and its attributes with their values decoded. -/
structure Tag where
  name : String
  attributes : List (String × String)
  deriving DecidableEq

/-- Names and values of attributes take turns between double quotes. -/
def readAttributes : List (List Char) → List (String × String)
  | name :: value :: rest =>
    (String.ofList (name.filter fun c ↦ c != ' ' && c != '='), String.ofList (decode value)) ::
      readAttributes rest
  | _ => []

/-- The tag that stands between two angle brackets. -/
def Tag.read (text : List Char) : Tag where
  name := String.ofList (text.takeWhile (· != ' '))
  attributes := readAttributes ((text.dropWhile (· != ' ')).splitOn '"')

/-- The tags of a document, each from a `<` to the next `>`. -/
def tags (text : List Char) : List Tag :=
  match _ : text.dropWhile (· != '<') with
  | [] => []
  | _ :: rest => Tag.read (rest.takeWhile (· != '>')) :: tags (rest.dropWhile (· != '>'))
termination_by text.length
decreasing_by
  rename_i hdrop
  have hlength := Token.length_dropWhile_le (· != '<') text
  have hrest := Token.length_dropWhile_le (· != '>') rest
  rw [hdrop, List.length_cons] at hlength
  omega

theorem tags_of_dropWhile {text : List Char} :
    tags text = match text.dropWhile (· != '<') with
      | [] => []
      | _ :: rest => Tag.read (rest.takeWhile (· != '>')) :: tags (rest.dropWhile (· != '>')) := by
  rw [tags]
  split
  · rename_i hdrop
    rw [hdrop]
  · rename_i hdrop
    rw [hdrop]

theorem bne_of_notMem {x : Char} {text : List Char} (h : x ∉ text) :
    ∀ c ∈ text, (c != x) = true := by
  intro c hc
  rw [bne_iff_ne]
  rintro rfl
  exact h hc

/-- Text between tags is passed over. -/
theorem tags_append {skipped : List Char} (h : '<' ∉ skipped) (rest : List Char) :
    tags (skipped ++ rest) = tags rest := by
  rw [tags_of_dropWhile, List.dropWhile_append_of_pos (bne_of_notMem h), ← tags_of_dropWhile]

/-- A tag ends at the first `>`. -/
theorem tags_cons {content : List Char} (h : '>' ∉ content) (rest : List Char) :
    tags ('<' :: (content ++ '>' :: rest)) = Tag.read content :: tags rest := by
  have hopen : ('<' :: (content ++ '>' :: rest)).dropWhile (· != '<') =
      '<' :: (content ++ '>' :: rest) := by
    simp
  have hend : ∀ c ∈ ('>' :: rest).head?, (c != '>') = false := by simp
  obtain ⟨htake, hdrop⟩ := Text.span_append (bne_of_notMem h) hend
  have hskip : tags (['>'] ++ rest) = tags rest := tags_append (by decide) rest
  rw [tags_of_dropWhile, hopen]
  dsimp only
  rw [htake, hdrop, ← hskip]
  rfl

def writeAttribute : String × String → List Char
  | (name, value) => ' ' :: (name.toList ++ '=' :: '"' :: ((escape value).toList ++ ['"']))

/-- What is written between the angle brackets of a tag. -/
def Tag.write (tag : Tag) : List Char := tag.name.toList ++ tag.attributes.flatMap writeAttribute

/-- A tag on a line of its own, with what stands before it and what stands before its end. -/
def Tag.line (tag : Tag) (indent last : List Char) : List Char :=
  indent ++ '<' :: (tag.write ++ last) ++ ['>', '\n']

/-- The characters that names must not have. -/
def reserved : List Char := [' ', '=', '"', '<', '>']

/-- Whether all names are without reserved characters. Nothing is asked of the values. -/
def Tag.IsPlain (tag : Tag) : Prop :=
  ∀ name ∈ tag.name :: tag.attributes.map Prod.fst, ∀ c ∈ name.toList, c ∉ reserved

/-- Attributes are read as they were written, values with equals signs and blanks in them included.
-/
theorem readAttributes_write {attributes : List (String × String)} {last : List Char}
    (h : ∀ name ∈ attributes.map Prod.fst, ∀ c ∈ name.toList, c ∉ reserved)
    (hlast : '"' ∉ last) :
    readAttributes ((attributes.flatMap writeAttribute ++ last).splitOn '"') = attributes := by
  induction attributes with
  | nil =>
    rw [List.flatMap_nil, List.nil_append, List.splitOn_eq_singleton hlast]
    rfl
  | cons entry rest ih =>
    obtain ⟨name, value⟩ := entry
    have hname := h name (by simp)
    -- What stands before the first quote of an attribute.
    generalize hlabel : ' ' :: (name.toList ++ ['=']) = label
    have hquote : '"' ∉ label := by
      simp only [← hlabel, List.mem_append, List.mem_cons, List.not_mem_nil, or_false, not_or]
      exact ⟨by decide, fun hmem ↦ hname _ hmem (by decide), by decide⟩
    have hkept : label.filter (fun c ↦ c != ' ' && c != '=') = name.toList := by
      have hplain : ∀ c ∈ name.toList, (c != ' ' && c != '=') = true := by
        intro c hc
        have hc' := hname c hc
        simp only [reserved, List.mem_cons, not_or] at hc'
        simp [hc'.1, hc'.2.1]
      rw [← hlabel, List.filter_cons_of_neg (by decide), List.filter_append,
        List.filter_eq_self.2 hplain]
      simp
    have hwritten : ((name, value) :: rest).flatMap writeAttribute ++ last =
        label ++ '"' :: ((escape value).toList ++ '"' ::
          (rest.flatMap writeAttribute ++ last)) := by
      simp [writeAttribute, ← hlabel]
    rw [hwritten, LineGrammar.splitOn_append_cons hquote,
      LineGrammar.splitOn_append_cons (notMem_escape (by decide) value), readAttributes, hkept,
      decode_escape, String.ofList_toList, String.ofList_toList,
      ih fun name' hname' ↦ h name' (List.mem_cons_of_mem _ hname')]

namespace Tag

variable {tag : Tag}

/-- A tag is read as it was written, whatever its values are. More may be written behind the last
attribute, as long as there is one. -/
theorem read_write (h : tag.IsPlain) {last : List Char} (hquote : '"' ∉ last)
    (hlast : tag.attributes = [] → last = []) : Tag.read (tag.write ++ last) = tag := by
  have hname : ' ' ∉ tag.name.toList := fun hmem ↦ h tag.name (by simp) ' ' hmem (by decide)
  have hspace : ∀ c ∈ (tag.attributes.flatMap writeAttribute ++ last).head?,
      (c != ' ') = false := by
    cases hattributes : tag.attributes with
    | nil => simp [hlast hattributes]
    | cons entry rest => simp [writeAttribute]
  obtain ⟨htake, hdrop⟩ := Text.span_append (bne_of_notMem hname) hspace
  have hattributes := readAttributes_write (fun name hname ↦ h name (List.mem_cons_of_mem _ hname))
    hquote
  rw [Tag.read, write, List.append_assoc, htake, hdrop, hattributes, String.ofList_toList]

/-- The angle brackets around a tag are the only ones. -/
theorem notMem_write (h : tag.IsPlain) {x : Char} (hx : x ∈ ['<', '>']) : x ∉ tag.write := by
  have hbrackets : ∀ x ∈ ['<', '>'], x ≠ ' ' ∧ x ≠ '=' ∧ x ≠ '"' :=
    Text.forall_mem_of_all (by decide)
  have hsigns := hbrackets x hx
  have hname : ∀ name ∈ tag.name :: tag.attributes.map Prod.fst, x ∉ name.toList := by
    intro name hmem hxname
    exact h name hmem x hxname
      (List.mem_cons_of_mem _ (List.mem_cons_of_mem _ (List.mem_cons_of_mem _ hx)))
  have hattribute : ∀ entry ∈ tag.attributes, x ∉ writeAttribute entry := by
    rintro ⟨name, value⟩ hentry
    have hlabel := hname name (List.mem_cons_of_mem _ (List.mem_map_of_mem hentry))
    have hvalue := notMem_escape (List.mem_cons_of_mem _ hx) value
    simp [writeAttribute, hsigns, hlabel, hvalue]
  rw [write, List.mem_append, List.mem_flatMap]
  rintro (hmem | ⟨entry, hentry, hmem⟩)
  · exact hname tag.name (by simp) hmem
  · exact hattribute entry hentry hmem

end Tag

/-- The tag of a line is read and nothing else of it. -/
theorem tags_line {tag : Tag} (h : tag.IsPlain) {indent last : List Char} (hindent : '<' ∉ indent)
    (hquote : '"' ∉ last) (hclose : '>' ∉ last) (hlast : tag.attributes = [] → last = [])
    (rest : List Char) : tags (tag.line indent last ++ rest) = tag :: tags rest := by
  have hcontent : '>' ∉ tag.write ++ last := by
    rw [List.mem_append, not_or]
    exact ⟨Tag.notMem_write h (by decide), hclose⟩
  have hline : tag.line indent last ++ rest =
      indent ++ '<' :: ((tag.write ++ last) ++ '>' :: '\n' :: rest) := by
    simp [Tag.line]
  have hnewline : tags (['\n'] ++ rest) = tags rest := tags_append (by decide) rest
  rw [hline, tags_append hindent, tags_cons hcontent, Tag.read_write h hquote hlast, ← hnewline]
  rfl

/-! ## The tags of a picture -/

/-- The tag that a command paints behind others. -/
def painted? (before : List Command) : Command → Option Tag
  | .stroke =>
    if segments before = [] then none
    else some ⟨"path", [("d", " ".intercalate (segments before)), ("fill", "none"),
      ("stroke", (latest strokeStyle? (.named "black") before).toText),
      ("stroke-width", (latest width? 1 before).toText)]⟩
  | .fill =>
    if segments before = [] then none
    else some ⟨"path", [("d", " ".intercalate (segments before)),
      ("fill", (latest fillStyle? (.named "black") before).toText), ("stroke", "none")]⟩
  | _ => none

/-- The tags that a list of commands paints, in order of their places. -/
def painted (commands : List Command) : List Tag :=
  (List.range commands.length).filterMap fun i ↦ commands[i]?.bind (painted? (commands.take i))

/-- The tag around a picture. -/
def frame (width height : Number) : Tag :=
  ⟨"svg", [("xmlns", "http://www.w3.org/2000/svg"), ("width", width.toText),
    ("height", height.toText),
    ("viewBox", "0 0 " ++ width.toText ++ " " ++ height.toText)]⟩

theorem plain_toText (n : Number) : ∀ c ∈ n.toText.toList, c ∉ markup := by
  have hprinted : ∀ c ∈ Number.printedChars, c ∉ markup := Text.forall_mem_of_all (by decide)
  exact fun c hc ↦ hprinted c (Number.mem_toText hc)

/-- A label with two numbers behind it. -/
theorem plain_pair {label : String} (h : ∀ c ∈ label.toList, c ∉ markup) (x y : Number) :
    ∀ c ∈ (label ++ x.toText ++ " " ++ y.toText).toList, c ∉ markup := by
  have hspace : ∀ c ∈ " ".toList, c ∉ markup := Text.forall_mem_of_all (by decide)
  intro c hc
  simp only [String.toList_append, List.mem_append] at hc
  rcases hc with ((hlabel | hx) | hc) | hy
  · exact h c hlabel
  · exact plain_toText x c hx
  · exact hspace c hc
  · exact plain_toText y c hy

theorem plain_segment {command : Command} {text : String} (h : segment? command = some text) :
    ∀ c ∈ text.toList, c ∉ markup := by
  have hmove : ∀ c ∈ "M ".toList, c ∉ markup := Text.forall_mem_of_all (by decide)
  have hline : ∀ c ∈ "L ".toList, c ∉ markup := Text.forall_mem_of_all (by decide)
  cases command with
  | move x y =>
    cases h
    exact plain_pair hmove x y
  | line x y =>
    cases h
    exact plain_pair hline x y
  | close =>
    cases h
    exact Text.forall_mem_of_all (by decide)
  | _ => cases h

theorem mem_intercalate {parts : List String} {c : Char}
    (h : c ∈ (" ".intercalate parts).toList) : c = ' ' ∨ ∃ part ∈ parts, c ∈ part.toList := by
  induction parts with
  | nil => simp at h
  | cons part rest ih =>
    cases rest with
    | nil => exact .inr ⟨part, by simp, by simpa using h⟩
    | cons next rest =>
      rw [String.toList_intercalate, List.map_cons, List.map_cons, List.intercalate_cons_cons,
        ← List.map_cons, ← String.toList_intercalate] at h
      simp only [List.mem_append] at h
      rcases h with (hpart | hspace) | hrest
      · exact .inr ⟨part, by simp, hpart⟩
      · exact .inl (by simpa using hspace)
      · rcases ih hrest with rfl | ⟨part', hmem, hc⟩
        · exact .inl rfl
        · exact .inr ⟨part', List.mem_cons_of_mem _ hmem, hc⟩

theorem plain_path (before : List Command) :
    ∀ c ∈ (" ".intercalate (segments before)).toList, c ∉ markup := by
  intro c hc
  rcases mem_intercalate hc with rfl | ⟨part, hpart, hc⟩
  · decide
  · obtain ⟨command, -, hsegment⟩ := List.mem_filterMap.1 hpart
    exact plain_segment hsegment c hc

/-- Every element is its tag on a line. Only colours need to be escaped. -/
theorem toList_element? (before : List Command) (command : Command) :
    (element? before command).map String.toList =
      (painted? before command).map (Tag.line · [' ', ' '] ['/']) := by
  have hpath := escape_of_plain (plain_path before)
  have hwidth := escape_of_plain (plain_toText (latest width? 1 before))
  have hnone : escape "none" = "none" := by decide
  cases command with
  | stroke =>
    by_cases hempty : segments before = []
    · simp [element?, painted?, hempty]
    · simp [element?, painted?, hempty, Tag.line, Tag.write, writeAttribute, ← escape_eq, hpath,
        hwidth, hnone]
  | fill =>
    by_cases hempty : segments before = []
    · simp [element?, painted?, hempty]
    · simp [element?, painted?, hempty, Tag.line, Tag.write, writeAttribute, ← escape_eq, hpath,
        hnone]
  | _ => rfl

/-- Every element is a line with the tag that is painted there. -/
theorem toList_elements (commands : List Command) :
    (elements commands).map String.toList =
      (painted commands).map (Tag.line · [' ', ' '] ['/']) := by
  rw [elements, painted, List.map_filterMap, List.map_filterMap]
  congr 1
  funext i
  rw [elementAt?, Option.map_bind, Option.map_bind]
  congr 1
  funext command
  exact toList_element? _ command

theorem isPlain_of_mem_painted {commands : List Command} {tag : Tag} (h : tag ∈ painted commands) :
    tag.IsPlain ∧ tag.attributes ≠ [] := by
  have hnames : ∀ name ∈ ["path", "d", "fill", "stroke", "stroke-width"],
      name.toList.all (· ∉ reserved) = true := by
    decide
  obtain ⟨i, -, hi⟩ := List.mem_filterMap.1 h
  obtain ⟨command, -, hcommand⟩ := Option.bind_eq_some_iff.1 hi
  cases command with
  | stroke | fill =>
    simp only [painted?, Option.ite_none_left_eq_some, Option.some.injEq] at hcommand
    obtain ⟨-, rfl⟩ := hcommand
    refine ⟨fun name hname ↦ Text.forall_mem_of_all (hnames name ?_), by simp⟩
    simp only [List.map_cons, List.map_nil, List.mem_cons, List.not_mem_nil, or_false] at hname ⊢
    tauto
  | _ => cases hcommand

theorem isPlain_frame (width height : Number) : (frame width height).IsPlain := by
  have hnames : ∀ name ∈ ["svg", "xmlns", "width", "height", "viewBox"],
      name.toList.all (· ∉ reserved) = true := by
    decide
  exact fun name hname ↦ Text.forall_mem_of_all (hnames name hname)

theorem toList_header (width height : Number) :
    (header width height).toList = (frame width height).line [] [] := by
  have hspace : escape "http://www.w3.org/2000/svg" = "http://www.w3.org/2000/svg" :=
    escape_of_plain (Text.forall_mem_of_all (by decide))
  have horigin : ∀ c ∈ "0 0 ".toList, c ∉ markup := Text.forall_mem_of_all (by decide)
  have hbox := escape_of_plain (plain_pair horigin width height)
  unfold header
  simp only [String.toList_append]
  unfold Tag.line Tag.write frame
  simp only [List.flatMap_cons, List.flatMap_nil, writeAttribute, hspace, hbox,
    escape_of_plain (plain_toText width), escape_of_plain (plain_toText height)]
  simp

/-- The elements are read one after another. -/
theorem tags_elements {all : List Tag} (h : ∀ tag ∈ all, tag.IsPlain ∧ tag.attributes ≠ [])
    (rest : List Char) :
    tags ((all.flatMap (Tag.line · [' ', ' '] ['/'])) ++ rest) = all ++ tags rest := by
  induction all with
  | nil => rfl
  | cons tag all ih =>
    obtain ⟨hplain, hne⟩ := h tag (by simp)
    rw [List.flatMap_cons, List.append_assoc,
      tags_line hplain (by decide) (by decide) (by decide) fun hnil ↦ absurd hnil hne,
      ih fun tag' htag' ↦ h tag' (List.mem_cons_of_mem _ htag'), List.cons_append]

/-- A reader of the document sees the frame, one tag for every painted path and the end of the
frame. -/
theorem tags_document (canvas : Canvas) :
    tags (document canvas).toList = frame canvas.width canvas.height ::
      painted canvas.commands.toList ++ [⟨"/svg", []⟩] := by
  have hdocument : (document canvas).toList = (frame canvas.width canvas.height).line [] [] ++
      ((painted canvas.commands.toList).flatMap (Tag.line · [' ', ' '] ['/']) ++
        Tag.line ⟨"/svg", []⟩ [] []) := by
    have hfooter : footer.toList = Tag.line ⟨"/svg", []⟩ [] [] := by decide
    rw [document, ← Array.foldl_toList, foldl_write]
    simp only [String.toList_append, String.toList_join, List.flatMap_def, toList_elements,
      toList_header, hfooter, List.append_assoc]
  have hend : tags (Tag.line ⟨"/svg", []⟩ [] []) = [⟨"/svg", []⟩] := by
    have hplain : Tag.IsPlain ⟨"/svg", []⟩ := by
      intro name hname
      obtain rfl : name = "/svg" := by simpa using hname
      exact Text.forall_mem_of_all (by decide)
    rw [← List.append_nil (Tag.line _ _ _),
      tags_line hplain (by decide) (by decide) (by decide) fun _ ↦ rfl, tags_of_dropWhile]
    rfl
  rw [hdocument, tags_line (isPlain_frame _ _) (by decide) (by decide) (by decide) fun _ ↦ rfl,
    tags_elements (fun tag htag ↦ isPlain_of_mem_painted htag), hend]
  rfl

/-- Colour names cannot break out of a picture. Escaping replaces every character on its own, leaves
no character that ends an attribute or a tag, and only ampersands that start an entity; decoding
gives the text back, so no two texts are escaped alike. Whatever the colours of a canvas are called,
a reader of its document sees the frame and one tag for every painted path, with the recorded
colours as the values of its attributes, and no other tags or attributes. -/
theorem colors_stay_inside_attributes :
    (∀ text : String,
      escape text = String.ofList (text.toList.flatMap fun c ↦ (entity c).toList) ∧
      (∀ c ∈ ['"', '<', '>'], c ∉ (escape text).toList) ∧
      (∀ before after : List Char, (escape text).toList = before ++ '&' :: after →
        ∃ e ∈ entities, e.toList <+: '&' :: after) ∧
      decode (escape text).toList = text.toList) ∧
    Function.Injective escape ∧
    ∀ canvas : Canvas, tags (document canvas).toList = frame canvas.width canvas.height ::
      painted canvas.commands.toList ++ [⟨"/svg", []⟩] := by
  refine ⟨fun text ↦ ⟨escape_eq text, fun c hc ↦ notMem_escape hc text,
    fun before after h ↦ ?_, decode_escape text⟩, escape_injective, tags_document⟩
  rw [toList_escape] at h
  exact entity_prefix_of_ampersand text.toList before after h

/-- A colour that would end its attribute, open a tag of its own, and has an entity in its name. -/
def breakout : String := "&lt;\"/><b c=\"&"

theorem breakout_stays_inside_attribute :
    (escape breakout).toList = "&amp;lt;".toList ++ '&' :: "quot;/&gt;&lt;b c=&quot;&amp;".toList ∧
    (∃ e ∈ entities, e.toList <+: '&' :: "quot;/&gt;&lt;b c=&quot;&amp;".toList) ∧
    tags (document ⟨640, 480, #[.fillStyle (.named breakout), .close, .fill]⟩).toList =
      [frame 640 480, ⟨"path", [("d", "Z"), ("fill", breakout), ("stroke", "none")]⟩,
        ⟨"/svg", []⟩] := by
  have hescape : (escape breakout).toList =
      "&amp;lt;".toList ++ '&' :: "quot;/&gt;&lt;b c=&quot;&amp;".toList := by
    decide
  obtain ⟨htexts, -, hdocument⟩ := colors_stay_inside_attributes
  obtain ⟨-, -, hampersand, -⟩ := htexts breakout
  exact ⟨hescape, hampersand _ _ hescape, hdocument _⟩

end PenMachine.Svg
