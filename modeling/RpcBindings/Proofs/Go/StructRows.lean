import RpcBindings.Proofs.CamelCase
import RpcBindings.Proofs.Go.StructLines
import RpcBindings.Proofs.Schema.FieldOption
import RpcBindings.Proofs.Schema.FieldType
import RpcBindings.Proofs.Schema.SourceName
import RpcBindings.Proofs.Text.Bytes

/-!
The rows of a struct.

A column is as wide as its longest text in bytes, and a text is filled up to that width by
characters. No text has more characters than bytes, so all are filled up to the same number of
characters. Main statement: a struct has one row for every field of its record, in columns, and
nothing else but its head, its brace and comments; and a record has one field for every field of the
schema that no option leaves out (`Go.fields_in_rows`).
-/

namespace RpcBindings

open Rust

/-! ## Names -/

namespace Rust

variable {n : String}

/-- What holds of the characters of a plain name holds of those of the raw one, its mark aside. -/
theorem mem_plainName_of_mem {c : Char} (hr : c ≠ 'r') (hmark : c ≠ '#') (h : c ∈ n.toList) :
    c ∈ (plainName n).toList := by
  unfold plainName
  split
  · rename_i cs hn
    rw [hn] at h
    rw [String.toList_ofList]
    exact List.mem_of_ne_of_mem hmark (List.mem_of_ne_of_mem hr h)
  · exact h

end Rust

namespace Go

open Text Casing

/-! ## Columns -/

/-- A row of three texts, of which the second and the third begin in two columns. -/
def InColumns (typeColumn tagColumn : Nat) (name type tag : String) (line : List Char) : Prop :=
  ∃ gap gap', 0 < gap ∧ 0 < gap' ∧
    line = '\t' :: name.toList ++ List.replicate gap ' ' ++ type.toList ++
      List.replicate gap' ' ' ++ tag.toList ∧
    1 + name.length + gap = typeColumn ∧ typeColumn + type.length + gap' = tagColumn

theorem length_le_utf8ByteSize (text : String) : text.length ≤ text.utf8ByteSize := by
  rw [← byteLength_toList, ← String.length_toList]
  exact length_le_byteLength _

theorem length_le_columnWidth {texts : List String} {text : String} (h : text ∈ texts) :
    text.length ≤ columnWidth texts :=
  (length_le_utf8ByteSize text).trans
    (List.le_max?_getD_of_mem (List.mem_map_of_mem h))

theorem toList_padTo (width : Nat) (text : String) :
    (padTo width text).toList = text.toList ++ List.replicate (width - text.length) ' ' := by
  simp [padTo]

/-- Rows with texts that fit in have the same columns. -/
theorem FieldRow.inColumns_line {r : FieldRow} {nameWidth typeWidth : Nat}
    (hname : r.name.length ≤ nameWidth) (htype : r.type.length ≤ typeWidth) :
    InColumns (nameWidth + 2) (nameWidth + 2 + typeWidth + 1) r.name r.type r.tag
      (r.line nameWidth typeWidth).toList := by
  refine ⟨nameWidth - r.name.length + 1, typeWidth - r.type.length + 1, Nat.succ_pos _,
    Nat.succ_pos _, ?_, by omega, by omega⟩
  simp [FieldRow.line, toList_padTo, List.replicate_succ']

/-! ## Rows and comments -/

/-- A line that is a comment behind its indentation. Rows are indented by tabs, and where the name of
a row is missing there are spaces. -/
def isIndentedComment (line : List Char) : Bool :=
  isComment (line.dropWhile (· == '\t'))

/-- The names of the record are identifiers, and all texts that it is declared with are unbroken. -/
structure IsSingleLine (table : TypeTable) (r : Record) : Prop where
  name : IsIdentifier (plainName r.name).toList
  fieldNames : ∀ f ∈ r.fields, IsIdentifier (plainName f.sourceName).toList
  docs : ∀ doc ∈ r.docs, '\n' ∉ doc.toList
  fieldDocs : ∀ f ∈ r.fields, ∀ doc ∈ f.docs, '\n' ∉ doc.toList
  renames : ∀ f ∈ r.fields, ∀ key ∈ f.rename?, '\n' ∉ key.toList
  types : ∀ f ∈ r.fields, '\n' ∉ (table.resolve f.type).text.toList

theorem isIndentedComment_append {indent : List Char} (h : ∀ c ∈ indent, c = '\t')
    (text : List Char) : isIndentedComment (indent ++ '/' :: '/' :: text) = true := by
  unfold isIndentedComment
  rw [List.dropWhile_append_of_pos fun c hc => beq_iff_eq.2 (h c hc)]
  rfl

theorem laterLines_of_unbroken {doc : String} (h : '\n' ∉ doc.toList) : laterLines doc = [] := by
  unfold laterLines
  rw [lines, linesAux_newline h]
  rfl

/-- Unbroken documentation is comments. -/
theorem isIndentedComment_docText {indent : String} (h : ∀ c ∈ indent.toList, c = '\t')
    {docs : List String} (hdocs : ∀ doc ∈ docs, '\n' ∉ doc.toList) :
    ∀ line ∈ lines (docText indent docs).toList, isIndentedComment line = true := by
  induction docs with
  | nil => exact fun line hline => absurd hline List.not_mem_nil
  | cons doc docs ih =>
    have hnewline : '\n' ∉ indent.toList := fun hmem => absurd (h _ hmem) (by decide)
    obtain ⟨text, hlines⟩ := lines_docText_singleton hnewline doc
    rw [docText_cons, String.toList_append, lines_append getLast?_docText, hlines,
      laterLines_of_unbroken (hdocs doc List.mem_cons_self), List.forall_mem_append,
      List.forall_mem_singleton]
    exact ⟨isIndentedComment_append h text, ih fun d hd => hdocs d (List.mem_cons_of_mem doc hd)⟩

variable {table : TypeTable} {r : Record} {f : RecordField}

/-- A character that can stand in no name does not stand in a declared one. -/
theorem IsSingleLine.not_mem_upperCamel (h : IsSingleLine table r) (hf : f ∈ r.fields) {c : Char}
    (hc : Text.Identifier.isContinue c = false) (hupper : c.isUpper = false) (hmark : c ≠ '#') :
    c ∉ (upperCamel f.sourceName).toList := by
  have hr : c ≠ 'r' := fun heq => absurd hc (heq ▸ by decide)
  exact fun hmem => (h.fieldNames f hf).not_mem hc
    (mem_plainName_of_mem hr hmark (mem_of_mem_upperCamel hupper hmem))

theorem IsSingleLine.newline_not_mem_headLine (h : IsSingleLine table r) :
    '\n' ∉ (headLine r).toList := by
  have hname : '\n' ∉ r.name.toList := fun hmem =>
    h.name.newline_not_mem (mem_plainName_of_mem (by decide) (by decide) hmem)
  unfold headLine
  simp only [String.toList_append, List.mem_append, not_or]
  exact ⟨⟨by decide, hname⟩, by decide⟩

/-- The line of a row has no line feed. -/
theorem IsSingleLine.newline_not_mem_rowLine (h : IsSingleLine table r) (hf : f ∈ r.fields) :
    '\n' ∉ (rowLine table r f).toList := by
  have hspaces (n : Nat) : '\n' ∉ List.replicate n ' ' := fun hmem =>
    absurd (List.eq_of_mem_replicate hmem) (by decide)
  have hname : '\n' ∉ (upperCamel f.sourceName).toList :=
    h.not_mem_upperCamel hf (by decide +kernel) (by decide) (by decide)
  have hkey : '\n' ∉ (f.rename?.getD (lowerCamel f.sourceName)).toList := by
    cases hrename : f.rename? with
    | some key => exact h.renames f hf key hrename
    | none =>
      exact fun hmem => (h.fieldNames f hf).newline_not_mem
        (mem_plainName_of_mem (by decide) (by decide) (mem_of_mem_lowerCamel (by decide) hmem))
  unfold rowLine FieldRow.line FieldRow.ofField
  simp only [String.toList_append, toList_padTo, List.mem_append, not_or]
  exact ⟨⟨⟨⟨⟨by decide, hname, hspaces _⟩, by decide⟩, h.types f hf, hspaces _⟩, by decide⟩,
    ⟨by decide, hkey⟩, by decide⟩

theorem isIndentedComment_headLine (r : Record) : isIndentedComment (headLine r).toList = false := by
  unfold headLine
  rw [String.toList_append, String.toList_append]
  rfl

theorem isIndentedComment_cons {c : Char} (htab : c ≠ '\t') (hslash : c ≠ '/') (cs : List Char) :
    isIndentedComment ('\t' :: c :: cs) = false := by
  unfold isIndentedComment isComment
  rw [List.dropWhile_cons_of_pos rfl, List.dropWhile_cons_of_neg (by simpa using htab),
    List.isPrefixOf_cons_cons, beq_false_of_ne hslash.symm, Bool.false_and]

/-- A row of a name without tabs and slashes is no comment. -/
theorem InColumns.not_isIndentedComment {typeColumn tagColumn : Nat} {name type tag : String}
    {line : List Char} (h : InColumns typeColumn tagColumn name type tag line)
    (htab : '\t' ∉ name.toList) (hslash : '/' ∉ name.toList) : isIndentedComment line = false := by
  obtain ⟨gap, gap', hgap, -, rfl, -, -⟩ := h
  obtain ⟨gap, rfl⟩ := Nat.exists_eq_add_of_le' hgap
  cases hname : name.toList with
  | nil => rfl
  | cons c cs =>
    rw [hname] at htab hslash
    simp only [List.cons_append]
    exact isIndentedComment_cons (List.ne_of_not_mem_cons htab).symm
      (List.ne_of_not_mem_cons hslash).symm _

/-- The column in which the types of a struct begin. -/
def typeColumn (table : TypeTable) (r : Record) : Nat :=
  columnWidth (r.fields.map fun f => (FieldRow.ofField table f).name) + 2

/-- The column in which the tags of a struct begin. -/
def tagColumn (table : TypeTable) (r : Record) : Nat :=
  typeColumn table r + columnWidth (r.fields.map fun f => (FieldRow.ofField table f).type) + 1

/-- The rows of a struct have the same columns. -/
theorem inColumns_rowLine (hf : f ∈ r.fields) :
    InColumns (typeColumn table r) (tagColumn table r) (upperCamel f.sourceName)
      (table.resolve f.type).text
      ("\x60json:\"" ++ f.rename?.getD (lowerCamel f.sourceName) ++ "\"\x60")
      (rowLine table r f).toList := by
  have hname := length_le_columnWidth
    (List.mem_map_of_mem (f := fun f => (FieldRow.ofField table f).name) hf)
  have htype := length_le_columnWidth
    (List.mem_map_of_mem (f := fun f => (FieldRow.ofField table f).type) hf)
  have hline := FieldRow.inColumns_line (r := FieldRow.ofField table f) hname htype
  unfold rowLine
  exact hline

/-! ## All lines -/

/-- The lines of a struct of unbroken texts that are no comments are its head, its rows and its
brace. -/
theorem IsSingleLine.filter_lines (h : IsSingleLine table r) :
    (lines (structText table r).toList).filter (!isIndentedComment ·) = structLines table r := by
  have hrows (f : RecordField) (hf : f ∈ r.fields) :
      isIndentedComment (rowLine table r f).toList = false :=
    (inColumns_rowLine hf).not_isIndentedComment
      (h.not_mem_upperCamel hf (by decide +kernel) (by decide) (by decide))
      (h.not_mem_upperCamel hf (by decide +kernel) (by decide) (by decide))
  have hkept : ∀ line ∈ structLines table r, isIndentedComment line = false := by
    unfold structLines
    rw [List.forall_mem_append, List.forall_mem_cons, List.forall_mem_map,
      List.forall_mem_singleton]
    exact ⟨⟨isIndentedComment_headLine r, hrows⟩, rfl⟩
  have hlines : ∀ line ∈ structLines table r, '\n' ∉ line := by
    unfold structLines
    rw [List.forall_mem_append, List.forall_mem_cons, List.forall_mem_map,
      List.forall_mem_singleton]
    exact ⟨⟨h.newline_not_mem_headLine, fun f hf => h.newline_not_mem_rowLine hf⟩, by decide⟩
  have hdocs : ∀ line ∈ (structGroups table r).flatMap (·.1), isIndentedComment line = true := by
    unfold structGroups
    rw [List.cons_append, List.flatMap_cons, List.flatMap_append, List.flatMap_map,
      List.forall_mem_append, List.forall_mem_append, List.forall_mem_flatMap]
    have hnone : ∀ c ∈ "".toList, c = '\t' := nofun
    have htab : ∀ c ∈ "\t".toList, c = '\t' := by decide
    exact ⟨isIndentedComment_docText hnone h.docs,
      fun f hf => isIndentedComment_docText htab (h.fieldDocs f hf),
      fun line hline => absurd hline List.not_mem_nil⟩
  rw [lines_structText hlines]
  have hinterspersed := Interspersed.groups_iff.2 hdocs
  rw [map_structGroups] at hinterspersed
  exact hinterspersed.filter_eq hkept

end Go

/-! ## Fields -/

/-- A field of a record as it is declared. -/
def RecordField.ofDeclared (f : StructField) : RecordField :=
  ⟨plainName f.name, .ofRust f.type, Schema.docLines f.attributes, Schema.rename? f.attributes⟩

namespace Record

open Schema

variable {declared : List StructField} {optionsOf : StructField → List (List FieldOption)}

theorem exists_fields_of_ofStruct {item : StructItem} {r : Record} (h : ofStruct item = .ok r) :
    ∃ declared, item.fields? = some declared := by
  unfold ofStruct at h
  split at h
  · exact absurd h nofun
  · split at h
    · exact absurd h nofun
    · split at h
      · exact absurd h nofun
      · exact ⟨_, ‹_›⟩

theorem fields_of_ofStruct {item : StructItem} {r : Record} (h : ofStruct item = .ok r)
    (hdeclared : item.fields? = some declared) : r.fields = declared.filterMap fieldOf? := by
  unfold ofStruct at h
  rw [hdeclared] at h
  split at h
  · exact absurd h nofun
  · split at h
    · exact absurd h nofun
    · exact Except.ok.inj h ▸ rfl

/-- Without arguments between delimiters every option is heard. -/
theorem isOmitted_of_plain {attributes : List MetaItem} {groups : List (List FieldOption)}
    (h : HoldsOptions attributes groups) (hplain : ∀ o ∈ groups.flatten, o.isList = false) :
    isOmitted attributes = groups.flatten.any FieldOption.leavesOut := by
  rw [isOmitted_eq h, flatMap_heard_of_not_isList hplain]

/-- A record keeps the fields that no option leaves out. -/
theorem fields_of_options {item : StructItem} {r : Record} (h : ofStruct item = .ok r)
    (hdeclared : item.fields? = some declared)
    (hoptions : ∀ f ∈ declared, HoldsOptions f.attributes (optionsOf f) ∧
      ∀ o ∈ (optionsOf f).flatten, o.isList = false) :
    r.fields = (declared.filter fun f => !(optionsOf f).flatten.any FieldOption.leavesOut).map
      RecordField.ofDeclared := by
  rw [fields_of_ofStruct h hdeclared, ← List.filterMap_eq_map, List.filterMap_filter]
  refine List.filterMap_congr fun f hf => ?_
  obtain ⟨hholds, hplain⟩ := hoptions f hf
  unfold fieldOf?
  rw [isOmitted_of_plain hholds hplain]
  cases (optionsOf f).flatten.any FieldOption.leavesOut <;> rfl

end Record

namespace Go

open Text Casing Schema

/-- The lines of a text that are no comments: the head of a record, a row in columns for every field in
order, and the brace. -/
def HasRows (table : TypeTable) (r : Record) (text : String) : Prop :=
  ∃ rows typeColumn tagColumn,
    (lines text.toList).filter (!isIndentedComment ·) =
      (headLine r).toList :: rows ++ [['\x7d']] ∧
    List.Forall₂ (fun f line => InColumns typeColumn tagColumn (upperCamel f.sourceName)
      (table.resolve f.type).text
      ("\x60json:\"" ++ f.rename?.getD (lowerCamel f.sourceName) ++ "\"\x60") line) r.fields rows

theorem IsSingleLine.hasRows {table : TypeTable} {r : Record} (h : IsSingleLine table r) :
    HasRows table r (structText table r) := by
  refine ⟨r.fields.map fun f => (rowLine table r f).toList, typeColumn table r, tagColumn table r,
    h.filter_lines, ?_⟩
  exact List.forall₂_map_right_iff.2 (List.forall₂_same.2 fun f hf => inColumns_rowLine hf)

/-- A struct of unbroken texts has one row for every field of its record, in order and in columns, and no
other lines than these, its head, its brace and comments. A record is read from a struct in the schema;
when the options of its fields are flags and assigned literals, it has the fields without an option that
leaves them out, in order. -/
theorem fields_in_rows (table : TypeTable) :
    (∀ r, IsSingleLine table r → HasRows table r (structText table r)) ∧
    (∀ schema r, .found r ∈ Record.readAll schema → ∃ fragment item,
      fragment.toList <:+: schema.toList ∧ StructItem.ofText? fragment = some item ∧
        Record.ofStruct item = .ok r) ∧
    ∀ item r, Record.ofStruct item = .ok r → ∃ declared, item.fields? = some declared ∧
      ∀ optionsOf : StructField → List (List FieldOption),
        (∀ f ∈ declared, HoldsOptions f.attributes (optionsOf f) ∧
          ∀ o ∈ (optionsOf f).flatten, o.isList = false) →
        r.fields = (declared.filter fun f =>
          !(optionsOf f).flatten.any FieldOption.leavesOut).map RecordField.ofDeclared := by
  refine ⟨fun r h => h.hasRows, fun schema r h => Record.exists_item_of_found h, ?_⟩
  intro item r h
  obtain ⟨declared, hdeclared⟩ := Record.exists_fields_of_ofStruct h
  exact ⟨declared, hdeclared, fun optionsOf hoptions =>
    Record.fields_of_options h hdeclared hoptions⟩

/-- A record of names, types and keys of many bytes. -/
def sizes : Record :=
  ⟨"Maße", ["Größen"], [⟨"länge_x", .scalar "u64", ["in m"], none⟩,
    ⟨"id", .sequence (.scalar "Größe"), [], some "größe"⟩]⟩

/-- A struct of two fields, the first with the option `skip`. -/
def skippedFirst : StructItem :=
  ⟨[], .everywhere, "A", false, some [
    ⟨[⟨⟨false, ["serde"]⟩, .list [.ident "skip"], ""⟩], "a", .path "" "u8" .none⟩,
    ⟨[], "b", .path "" "u8" .none⟩]⟩

/-- The rows of the first record begin their types in one column, though their names have different
numbers of bytes, and the second struct keeps its second field. -/
theorem fields_in_rows_sizes :
    IsSingleLine .standard sizes ∧ HasRows .standard sizes (structText .standard sizes) ∧
    (∃ r, .found r ∈ Record.readAll "pub struct A \x7b #[serde(skip)] pub a: u8, pub b: u8 \x7d" ∧
      ∃ fragment item, StructItem.ofText? fragment = some item ∧ Record.ofStruct item = .ok r) ∧
    ∃ r, Record.ofStruct skippedFirst = .ok r ∧ r.fields = [⟨"b", .scalar "u8", [], none⟩] := by
  obtain ⟨hrows, hread, hfields⟩ := fields_in_rows .standard
  have hsingle : IsSingleLine .standard sizes := {
    name := ⟨'M', "aße".toList, by decide +kernel, by decide, by decide +kernel⟩
    fieldNames := by
      refine List.forall_mem_cons.2 ⟨⟨'l', "änge_x".toList, ?_, ?_, ?_⟩,
        List.forall_mem_singleton.2 ⟨'i', ['d'], ?_, ?_, ?_⟩⟩ <;> decide +kernel
    docs := by decide
    fieldDocs := by decide
    renames := by decide
    types := by decide +kernel }
  have hfound : Record.readAll "pub struct A \x7b #[serde(skip)] pub a: u8, pub b: u8 \x7d" =
      [.found ⟨"A", [], [⟨"b", .scalar "u8", [], none⟩]⟩] := by
    decide +kernel
  obtain ⟨fragment, item, -, hitem, hstruct⟩ := hread _ _ (hfound ▸ List.mem_singleton_self _)
  refine ⟨hsingle, hrows _ hsingle,
    ⟨_, hfound ▸ List.mem_singleton_self _, fragment, item, hitem, hstruct⟩, _, rfl, ?_⟩
  obtain ⟨declared, hdeclared, hkept⟩ := hfields skippedFirst _ rfl
  obtain rfl := Option.some.inj hdeclared
  have hkey : KeyTokens (FieldOption.flag "skip").key [.ident "skip"] := .plain (.one _)
  have hflag : FormTokens (FieldOption.flag "skip").form [] := .flag
  have hskip : OptionTokens [.flag "skip"] [.ident "skip"] := .last hkey hflag
  refine (hkept (fun f => if f.name = "a" then [[.flag "skip"]] else []) ?_).trans rfl
  exact List.forall_mem_cons.2 ⟨⟨.cons hskip .nil, by decide⟩,
    List.forall_mem_singleton.2 ⟨.nil, by decide⟩⟩

/-- The option `skip = "x"`. -/
def assignedSkip : FieldOption :=
  .assigned "skip" (.plain (.str "x") "\"x\"")

/-- A struct of a field with this option. -/
def assignedSkipSchema : String :=
  "pub struct A \x7b #[serde(skip = \"x\")] pub a: u8 \x7d"

/-- Whether some arguments are this option alone. -/
def isAssignedSkip : List (List Token) → Bool
  | [[.ident "skip", .punct '=' false, .literal (.str "x") "\"x\""]] => true
  | _ => false

theorem holdsOptions_of_isAssignedSkip {attributes : List MetaItem}
    (h : isAssignedSkip (argumentsOf "serde" attributes) = true) :
    HoldsOptions attributes [[assignedSkip]] := by
  unfold isAssignedSkip at h
  split at h
  · rename_i harguments
    have hkey : KeyTokens assignedSkip.key [.ident "skip"] := .plain (.one _)
    have hform : FormTokens assignedSkip.form [.punct '=' false, .literal (.str "x") "\"x\""] :=
      .assigned false _
    unfold HoldsOptions
    rw [harguments]
    exact .cons (.last hkey hform) .nil
  · exact absurd h Bool.false_ne_true

/-- An option that is no flag leaves its field out, too. -/
theorem assigned_skip_leaves_out : ∃ item r declared, Record.readAll assignedSkipSchema = [.found r] ∧
    StructItem.ofText? assignedSkipSchema = some item ∧ Record.ofStruct item = .ok r ∧
    item.fields? = some declared ∧
    (∀ f ∈ declared, HoldsOptions f.attributes [[assignedSkip]]) ∧
    (assignedSkip.isList = false ∧ assignedSkip.form.isFlag = false) ∧
    r.fields ≠ declared.map RecordField.ofDeclared := by
  have hfound : Record.readAll assignedSkipSchema = [.found ⟨"A", [], []⟩] := by decide +kernel
  have htext : ((StructItem.ofText? assignedSkipSchema).map fun item =>
      ((Record.ofStruct item).toOption, item.fields?.map fun fields =>
        fields.map fun f => isAssignedSkip (argumentsOf "serde" f.attributes))) =
      some (some ⟨"A", [], []⟩, some [true]) := by
    decide +kernel
  obtain ⟨item, hitem, hread⟩ := Option.map_eq_some_iff.1 htext
  obtain ⟨hstruct, hfields⟩ := Prod.mk.inj hread
  obtain ⟨declared, hdeclared, hoptions⟩ := Option.map_eq_some_iff.1 hfields
  have hok : Record.ofStruct item = .ok ⟨"A", [], []⟩ := by
    cases hresult : Record.ofStruct item with
    | error reason =>
      rw [hresult] at hstruct
      exact absurd hstruct nofun
    | ok r =>
      rw [hresult] at hstruct
      exact congrArg Except.ok (Option.some.inj hstruct)
  obtain ⟨f, rfl⟩ := List.length_eq_one_iff.1 (List.length_map _ ▸ congrArg List.length hoptions)
  refine ⟨item, _, [f], hfound, hitem, hok, hdeclared, ?_, ⟨rfl, rfl⟩, nofun⟩
  exact List.forall_mem_singleton.2 (holdsOptions_of_isAssignedSkip (List.cons.inj hoptions).1)

end Go

end RpcBindings
