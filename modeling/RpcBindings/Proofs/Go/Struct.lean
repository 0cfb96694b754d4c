import RpcBindings.Go.Struct
import RpcBindings.Proofs.Go.Table
import RpcBindings.Settings.Basic

/-!
Go types of fields.

A table holds types that have been read, so what their text begins with says whether they are indirect.
Main statements: the Go type of a name with an entry, of an `Option` and of a `Vec` of it
(`TypeTable.text_resolve`), and that a field of a record is declared with its type
(`Go.declaresField_structText`).
-/

namespace RpcBindings

namespace GoType

/-- Whether a text begins with the marker of a pointer or of a slice. -/
def isMarked (text : String) : Bool :=
  ['*'].isPrefixOf text.toList || ['[', ']'].isPrefixOf text.toList

/-- The text of a type that may be missing: one level of indirection, unless the text has one. -/
def optionalText (text : String) : String :=
  if isMarked text then text else "*" ++ text

theorem ofChars_star (cs : List Char) : ofChars ('*' :: cs) = pointer (ofChars cs) := by
  rw [ofChars.eq_def]
  rfl

theorem ofChars_brackets (cs : List Char) : ofChars ('[' :: ']' :: cs) = slice (ofChars cs) := by
  rw [ofChars.eq_def]
  rfl

theorem isMarked_star (text : String) : isMarked ("*" ++ text) = true := by
  unfold isMarked
  rw [String.toList_append]
  rfl

theorem isMarked_brackets (text : String) : isMarked ("[]" ++ text) = true := by
  unfold isMarked
  rw [String.toList_append]
  rfl

/-- A text that begins with a marker is not read as a name. -/
theorem not_isMarked_of_named {cs : List Char} (h : ofChars cs = named (.ofList cs)) :
    isMarked (.ofList cs) = false := by
  refine Bool.eq_false_iff.2 fun hmarked => ?_
  unfold isMarked at hmarked
  rw [String.toList_ofList, Bool.or_eq_true] at hmarked
  rcases hmarked with hp | hp
  · obtain ⟨rest, rfl⟩ := List.isPrefixOf_iff_prefix.1 hp
    exact absurd ((ofChars_star rest).symm.trans h) nofun
  · obtain ⟨rest, rfl⟩ := List.isPrefixOf_iff_prefix.1 hp
    exact absurd ((ofChars_brackets rest).symm.trans h) nofun

theorem isMarked_ofChars (cs : List Char) :
    isMarked (ofChars cs).text = (ofChars cs).isIndirect := by
  induction cs with
  | nil => rfl
  | cons c cs ih =>
    rcases ofChars_cases (c :: cs) with ⟨heq, -⟩ | ⟨d, rest, heq, -, hread⟩ | ⟨rest, -, hread⟩ |
      ⟨rest, -, hread⟩ | hread
    · exact absurd heq (List.cons_ne_nil c cs)
    · obtain ⟨-, rfl⟩ := List.cons.inj heq
      rw [hread]
      exact ih
    · rw [hread]
      exact isMarked_star _
    · rw [hread]
      exact isMarked_brackets _
    · rw [hread]
      exact not_isMarked_of_named hread

/-- What the text of a type that has been read begins with says whether the type is indirect. -/
theorem isMarked_ofText (text : String) :
    isMarked (ofText text).text = (ofText text).isIndirect :=
  isMarked_ofChars _

theorem text_indirect {t : GoType} (h : isMarked t.text = t.isIndirect) :
    t.indirect.text = optionalText t.text := by
  unfold indirect optionalText
  rw [h]
  split <;> rfl

end GoType

namespace TypeTable

theorem isMarked_of_mem {s : Settings} {name : String} {target : GoType}
    (h : (name, target) ∈ s.typeTable.entries) : GoType.isMarked target.text = target.isIndirect := by
  have hread : ∃ text, target = GoType.ofText text := by
    rcases mem_withOverrides h with h | ⟨o, -, h⟩
    · rcases mem_withOverrides h with h | ⟨o, -, h⟩
      · exact absurd h List.not_mem_nil
      · exact ⟨o.2, congrArg Prod.snd h⟩
    · exact ⟨o.2, congrArg Prod.snd h⟩
  obtain ⟨text, rfl⟩ := hread
  exact GoType.isMarked_ofText text

/-- The Go text of a name with an entry, of an optional one and of a sequence. -/
theorem text_resolve {s : Settings} {name : String} {target : GoType}
    (h : (name, target) ∈ s.typeTable.entries) :
    (s.typeTable.resolve (.scalar name)).text = target.text ∧
      (s.typeTable.resolve (.optional (.scalar name))).text = GoType.optionalText target.text ∧
      (s.typeTable.resolve (.sequence (.scalar name))).text = "[]" ++ target.text := by
  have hscalar : s.typeTable.resolve (.scalar name) = target := by
    rw [resolve, get?_of_mem h]
    rfl
  refine ⟨by rw [hscalar], ?_, by rw [resolve, hscalar]; rfl⟩
  rw [resolve, hscalar]
  exact GoType.text_indirect (isMarked_of_mem h)

end TypeTable

namespace Go

/-- A text declares a field with a type: it has a row of these two and of a tag, in columns. -/
def DeclaresField (text name type : String) : Prop :=
  ∃ before after nameWidth typeWidth tag,
    text = before ++ FieldRow.text nameWidth typeWidth ⟨name, type, tag⟩ ++ after

/-- Every field of a record is declared with the Go type of its type. -/
theorem declaresField_structText (table : TypeTable) {r : Record} {f : RecordField}
    (h : f ∈ r.fields) :
    DeclaresField (structText table r) (Casing.upperCamel f.sourceName)
      (table.resolve f.type).text := by
  obtain ⟨before, after, hfields⟩ := List.append_of_mem h
  unfold structText
  extract_lets row nameWidth typeWidth
  let cell (f : RecordField) : String := docText "\t" f.docs ++ (row f).text nameWidth typeWidth
  refine ⟨docText "" r.docs ++ "type " ++ r.name ++ " struct \x7b\n" ++
      String.join (before.map cell) ++ docText "\t" f.docs,
    String.join (after.map cell) ++ "\x7d", nameWidth, typeWidth, (row f).tag, ?_⟩
  rw [hfields, List.map_append, List.map_cons, String.join_append, String.join_cons]
  simp only [String.append_assoc]
  rfl

end Go

end RpcBindings
