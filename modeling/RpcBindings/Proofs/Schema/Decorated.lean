import RpcBindings.Proofs.Masked.Decoration
import RpcBindings.Proofs.Schema.Fragment

/-!
Documentation above a struct.

The walk that looks for comments and attributes goes upwards line by line, and an attribute goes on
over lines that do not begin as one. Main statement: a struct on lines of its own is read as a whole
exactly when all of its lines above the one of its keyword begin as a comment or an attribute does, and
then it has all of its documentation (`PlacedStruct.read_whole_iff`). Below an attribute of several
lines documentation is lost (`PlacedStruct.docs_lost`).
-/

namespace RpcBindings

open Masked

/-- A struct on lines of its own in a source, below a line that is neither comment nor attribute. -/
structure PlacedStruct where
  before : List Char
  /-- The lines of the struct above the one of its keyword. -/
  lead : List Char
  /-- What stands on the line of the keyword before it. -/
  margin : List Char
  /-- What follows the keyword. -/
  body : List Char
  after : List Char
  before_lines : ∀ c ∈ before.getLast?, c = '\n'
  before_plain : ∀ line ∈ (Text.lines before).getLast?, isDecoration (Text.trim line) = false
  lead_lines : ∀ c ∈ lead.getLast?, c = '\n'
  margin_line : '\n' ∉ margin

namespace PlacedStruct

/-- The text of the struct. -/
def text (s : PlacedStruct) : List Char :=
  s.lead ++ s.margin ++ "struct".toList ++ s.body

def source (s : PlacedStruct) : String :=
  .ofList (s.before ++ s.text ++ s.after)

def masked (s : PlacedStruct) : Masked :=
  ofSource .rust s.source.toList

def keyword (s : PlacedStruct) : Nat :=
  Text.byteLength (s.before ++ s.lead ++ s.margin)

/-- The scan comes to the struct and goes on behind it: its keyword shows, it ends where its text does,
and no struct before it goes on across it. -/
structure Scanned (s : PlacedStruct) : Prop where
  keyword : s.masked.wordAt "struct".toList s.keyword = true
  stop : s.masked.structEnd s.keyword = (Text.byteLength (s.before ++ s.text), none)
  outside : Outside ((Record.located s.source).map (·.span)) s.keyword

variable {s : PlacedStruct}

theorem toList_source (s : PlacedStruct) : s.source.toList = s.before ++ s.text ++ s.after :=
  String.toList_ofList

/-- Where the last of some lines is no decoration although all of them are, there are none. -/
theorem eq_nil_of_lines {t : List Char}
    (hlast : ∀ line ∈ (Text.lines t).getLast?, isDecoration (Text.trim line) = false)
    (hall : ∀ line ∈ Text.lines t, isDecoration (Text.trim line) = true) : t = [] := by
  by_contra hne
  obtain ⟨line, hline⟩ := Text.exists_last_line hne
  have hdecoration := hall line (List.mem_of_getLast? hline)
  exact Bool.false_ne_true ((hlast line hline).symm.trans hdecoration)

/-- Decorations at the end of the lines above a keyword are lines of its struct. -/
theorem exists_lost (s : PlacedStruct) {u v : List Char} (h : s.before ++ s.lead = u ++ v)
    (hu : ∀ c ∈ u.getLast?, c = '\n')
    (hv : ∀ line ∈ Text.lines v, isDecoration (Text.trim line) = true) :
    ∃ lost, u = s.before ++ lost ∧ s.lead = lost ++ v := by
  rcases List.append_eq_append_iff.1 h with ⟨lost, hlost, hlead⟩ | ⟨more, hbefore, hmore⟩
  · exact ⟨lost, hlost, hlead⟩
  · have hlines : ∀ c ∈ more.getLast?, c = '\n' := fun c hc => s.before_lines c (by
      rw [hbefore, List.getLast?_append, hc]
      rfl)
    have hnil : more = [] := by
      refine eq_nil_of_lines (fun line hline => s.before_plain line ?_) fun line hline => hv line ?_
      · rw [hbefore, Text.lines_append hu, List.getLast?_append, hline]
        rfl
      · rw [hmore, Text.lines_append hlines]
        exact List.mem_append_left _ hline
    rw [hnil] at hbefore hmore
    exact ⟨[], by simpa using hbefore.symm, by simpa using hmore.symm⟩

/-- A struct is read from the lines of comment and attribute directly above its keyword's line on. -/
theorem exists_fragment (s : PlacedStruct) : ∃ lost kept, s.lead = lost ++ kept ∧
    (∀ line ∈ (Text.lines lost).getLast?, isDecoration (Text.trim line) = false) ∧
    (∀ line ∈ Text.lines kept, isDecoration (Text.trim line) = true) ∧
    (∀ c ∈ lost.getLast?, c = '\n') ∧
    s.masked.decorationStart s.keyword = Text.byteLength (s.before ++ lost) := by
  have hwhole : ∀ c ∈ (s.before ++ s.lead).getLast?, c = '\n' := by
    rw [List.getLast?_append]
    intro c hc
    rcases Option.or_eq_some_iff.1 hc with hc | ⟨-, hc⟩
    · exact s.lead_lines c hc
    · exact s.before_lines c hc
  have hsource : s.source.toList =
      (s.before ++ s.lead) ++ s.margin ++ ("struct".toList ++ s.body ++ s.after) := by
    rw [toList_source, text]
    simp
  have hstart : s.masked.lineStart s.keyword = Text.byteLength (s.before ++ s.lead) :=
    lineStart_of_lines hsource hwhole s.margin_line
  obtain ⟨u, v, hsplit, hfrom, hu, hlast, hkept⟩ :=
    @exists_split_decorationFrom .rust _ _ _ (hsource.trans (List.append_assoc _ _ _)) hwhole
  obtain ⟨lost, rfl, hlead⟩ := s.exists_lost hsplit hu hkept
  refine ⟨lost, v, hlead, ?_, hkept, ?_, ?_⟩
  · intro line hline
    refine hlast line ?_
    rw [Text.lines_append s.before_lines, List.getLast?_append, hline]
    rfl
  · intro c hc
    refine hu c ?_
    rw [List.getLast?_append, hc]
    rfl
  · unfold decorationStart
    rw [hstart]
    exact hfrom

/-- The rest of a struct behind the first of its lines. -/
theorem slice_text (s : PlacedStruct) {lost kept : List Char} (hlead : s.lead = lost ++ kept) :
    s.masked.slice (Text.byteLength (s.before ++ lost)) (Text.byteLength (s.before ++ s.text)) =
      kept ++ s.margin ++ "struct".toList ++ s.body := by
  have htext : s.text = lost ++ (kept ++ s.margin ++ "struct".toList ++ s.body) := by
    rw [text, hlead]
    simp only [List.append_assoc]
  have hsource : s.source.toList = s.before ++ lost ++
      (kept ++ s.margin ++ "struct".toList ++ s.body) ++ s.after := by
    rw [toList_source, htext]
    simp only [List.append_assoc]
  have hcut := Text.cut_append (s.before ++ lost) (kept ++ s.margin ++ "struct".toList ++ s.body)
    s.after
  rw [htext, ← List.append_assoc, Text.byteLength_append (s.before ++ lost)]
  rw [← hsource] at hcut
  exact hcut

/-- A struct that the scan comes to is read from its own comments and attributes on. -/
theorem mem_readAll (h : s.Scanned) :
    s.masked.recordAt s.keyword (Text.byteLength (s.before ++ s.text)) none ∈
      Record.readAll s.source := by
  have hfirst := getElem?_of_wordAt (k := 0) h.keyword rfl
  have hplace : s.keyword ∈ s.masked.wordStarts "struct" :=
    mem_wordStarts.2 ⟨(List.getElem?_eq_some_iff.1 hfirst).1, h.keyword⟩
  obtain ⟨d, hd, hstart⟩ := exists_of_outside (orderly_visitRecord s.source.toList) hplace
    (Nat.zero_le _) (fun next => nofun) h.outside fun j _ _ _ _ => nofun
  obtain ⟨hvalue, -⟩ := Visit.ended.inj (visit_of_mem hd).2
  rw [hstart, show (ofSource .rust s.source.toList).structEnd s.keyword = _ from h.stop] at hvalue
  unfold Record.readAll
  simp only [recordsFrom_eq]
  exact List.mem_map.2 ⟨d, hd, hvalue.symm⟩

/-- What is read of a struct on lines of its own is the part of it behind the last line above its
keyword's line that begins neither as a comment nor as an attribute does. Where there is no such line
it is read as a whole and found with all of its documentation. -/
theorem read_whole_iff (h : s.Scanned) {item : Rust.StructItem} {fields : List Rust.StructField}
    (hitem : Rust.StructItem.ofText? (.ofList s.text) = some item)
    (hpublic : item.visibility = .everywhere) (hplain : item.isGeneric = false)
    (hnamed : item.fields? = some fields) :
    ∃ lost kept, s.lead = lost ++ kept ∧
      s.masked.slice (s.masked.decorationStart s.keyword) (s.masked.structEnd s.keyword).1 =
        kept ++ s.margin ++ "struct".toList ++ s.body ∧
      (lost = [] ↔ ∀ line ∈ Text.lines s.lead, isDecoration (Text.trim line) = true) ∧
      (lost = [] → .found ⟨item.name, Schema.docLines item.attributes,
        fields.filterMap Record.fieldOf?⟩ ∈ Record.readAll s.source) := by
  obtain ⟨lost, kept, hlead, hlast, hkept, hlost, hstart⟩ := s.exists_fragment
  have hslice : s.masked.slice (s.masked.decorationStart s.keyword)
      (Text.byteLength (s.before ++ s.text)) =
      kept ++ s.margin ++ "struct".toList ++ s.body := by
    rw [hstart]
    exact s.slice_text hlead
  refine ⟨lost, kept, hlead, by rw [h.stop, hslice], ?_, ?_⟩
  · rw [hlead, Text.lines_append hlost]
    constructor
    · rintro rfl
      exact hkept
    · exact fun hall => eq_nil_of_lines hlast fun line hline =>
        hall line (List.mem_append_left _ hline)
  · rintro rfl
    have hmem := s.mem_readAll h
    have hwhole : kept ++ s.margin ++ "struct".toList ++ s.body = s.text := by
      rw [text, hlead, List.nil_append]
    unfold recordAt Record.ofText Record.ofStruct at hmem
    simp only [hslice, hwhole, hitem, hpublic, hplain, hnamed] at hmem
    exact hmem

/-- A text that a line feed ends consists of whole lines. -/
theorem wholeLines_of_getLast? {t : List Char} (h : t.getLast? = some '\n') :
    ∀ c ∈ t.getLast?, c = '\n' :=
  fun _ hc => Option.some.inj (hc.symm.trans h)

/-- A struct below an attribute of one line and documentation. -/
def derived : PlacedStruct where
  before := ['\n']
  lead := "/// Doc.\n#[derive(Debug)]\n".toList
  margin := "pub ".toList
  body := " A \x7b pub a: u8 \x7d".toList
  after := ['\n']
  before_lines := wholeLines_of_getLast? rfl
  before_plain := by decide
  lead_lines := wholeLines_of_getLast? (by decide)
  margin_line := by decide

theorem read_whole_derived : derived.Scanned ∧ ∃ item fields,
    Rust.StructItem.ofText? (.ofList derived.text) = some item ∧ item.visibility = .everywhere ∧
    item.isGeneric = false ∧ item.fields? = some fields ∧
    .found ⟨item.name, Schema.docLines item.attributes, fields.filterMap Record.fieldOf?⟩ ∈
      Record.readAll derived.source := by
  have hscanned : derived.Scanned :=
    ⟨by decide +kernel, by decide +kernel, by unfold Outside; decide +kernel⟩
  have hread : ((Rust.StructItem.ofText? (.ofList derived.text)).map fun i =>
      (i.visibility, i.isGeneric, i.fields?.isSome)) = some (.everywhere, false, true) := by
    decide +kernel
  obtain ⟨item, hitem, hparts⟩ := Option.map_eq_some_iff.1 hread
  obtain ⟨hpublic, hplain, hnamed⟩ : item.visibility = .everywhere ∧ item.isGeneric = false ∧
      item.fields?.isSome = true := by simpa using hparts
  obtain ⟨fields, hfields⟩ := Option.isSome_iff_exists.1 hnamed
  obtain ⟨lost, kept, -, -, hlost, hfound⟩ :=
    read_whole_iff hscanned hitem hpublic hplain hfields
  exact ⟨hscanned, item, fields, hitem, hpublic, hplain, hfields,
    hfound (hlost.2 (by decide +kernel))⟩

/-- A struct below documentation and an attribute of several lines. -/
def derivedOverLines : List Char :=
  "/// Doc.\n#[derive(\n    Debug,\n)]\npub struct A \x7b pub a: u8 \x7d".toList

/-- It is a public struct with named fields and documentation, and found without the documentation. -/
theorem docs_lost :
    (Rust.StructItem.ofText? (.ofList derivedOverLines)).map (fun item => (item.visibility,
        item.isGeneric, item.fields?.isSome, Schema.docLines item.attributes)) =
      some (.everywhere, false, true, ["Doc."]) ∧
      Record.readAll (.ofList ('\n' :: derivedOverLines ++ ['\n'])) =
        [.found ⟨"A", [], [⟨"a", .scalar "u8", [], none⟩]⟩] := by
  constructor <;> decide +kernel

end PlacedStruct

end RpcBindings
