import RpcBindings.Proofs.Go.Struct
import RpcBindings.Proofs.Text.Blank

/-!
Go types read back from their text.

What has been read is read again from its own text, and the markers that a resolution adds do not
change that. Main statement: `TypeTable.texts_read_back`.
-/

namespace RpcBindings

namespace GoType

/-- Reading the text of the type gives the type. -/
def ReadsBack (t : GoType) : Prop :=
  ofText t.text = t

instance (t : GoType) : Decidable t.ReadsBack :=
  inferInstanceAs (Decidable (ofText t.text = t))

theorem ReadsBack.pointer {t : GoType} (h : t.ReadsBack) : (pointer t).ReadsBack := by
  have htext : (GoType.pointer t).text.toList = '*' :: t.text.toList := String.toList_append
  unfold ReadsBack ofText at h ⊢
  rw [htext, Text.trimEnd_cons (by decide), ofChars_star, h]

theorem ReadsBack.slice {t : GoType} (h : t.ReadsBack) : (slice t).ReadsBack := by
  have htext : (GoType.slice t).text.toList = '[' :: ']' :: t.text.toList := String.toList_append
  unfold ReadsBack ofText at h ⊢
  rw [htext, Text.trimEnd_cons (by decide), Text.trimEnd_cons (by decide), ofChars_brackets, h]

theorem ReadsBack.indirect {t : GoType} (h : t.ReadsBack) : t.indirect.ReadsBack := by
  unfold GoType.indirect
  split
  · exact h
  · exact h.pointer

/-- A name that begins and ends in no blank and begins with no marker is read as a name. -/
theorem readsBack_named {name : String} (htrim : Text.trim name.toList = name.toList)
    (hmarked : isMarked name = false) : (named name).ReadsBack := by
  have hstart : Text.trimStart name.toList = name.toList := htrim ▸ Text.trimStart_trim name.toList
  have hend : Text.trimEnd name.toList = name.toList := by
    rwa [Text.trim, hstart] at htrim
  unfold isMarked at hmarked
  unfold ReadsBack ofText text
  rw [hend]
  rcases ofChars_cases name.toList with ⟨hnil, hread⟩ | ⟨c, rest, heq, hc, -⟩ | ⟨rest, heq, -⟩ |
    ⟨rest, heq, -⟩ | hread
  · rw [hread, String.toList_eq_nil_iff.1 hnil]
  · have hfirst := List.head?_dropWhile_not Text.isBlank name.toList
    rw [show name.toList.dropWhile Text.isBlank = name.toList from hstart, heq] at hfirst
    exact absurd hc (by simpa using hfirst)
  · rw [heq] at hmarked
    exact absurd hmarked nofun
  · rw [heq] at hmarked
    exact absurd hmarked nofun
  · rw [hread, String.ofList_toList]

/-- What stands behind the first character of a text without blanks at its end has none there. -/
theorem trimEnd_of_cons {c : Char} {cs : List Char} (h : Text.trimEnd (c :: cs) = c :: cs) :
    Text.trimEnd cs = cs := by
  cases hblank : Text.allBlank cs with
  | false => exact List.cons_inj_right c |>.1 <|
      (Text.trimEnd_append_of_not_allBlank hblank [c]).symm.trans h
  | true =>
    have hnil : cs = [] := by
      cases hc : Text.isBlank c with
      | false =>
        rw [Text.trimEnd_cons hc, Text.trimEnd_of_allBlank hblank] at h
        exact (List.cons.inj h).2.symm
      | true =>
        have hall : Text.allBlank (c :: cs) = true := by
          rw [Text.allBlank, List.all_cons, hc]
          exact hblank
        rw [Text.trimEnd_of_allBlank hall] at h
        exact absurd h.symm (List.cons_ne_nil c cs)
    rw [hnil]
    rfl

/-- A text that is read as a name is the text of that name. -/
theorem readsBack_of_named {cs : List Char} (hend : Text.trimEnd cs = cs)
    (h : ofChars cs = named (.ofList cs)) : (named (.ofList cs)).ReadsBack := by
  unfold ReadsBack ofText text
  rw [String.toList_ofList, hend, h]

theorem readsBack_ofChars {cs : List Char} (h : Text.trimEnd cs = cs) : (ofChars cs).ReadsBack := by
  fun_induction ofChars cs
  case case1 => rfl
  case case2 ih => exact ih (trimEnd_of_cons h)
  case case3 ih => exact (ih (trimEnd_of_cons h)).pointer
  case case4 c hc hstar =>
    refine readsBack_of_named h ?_
    rw [ofChars, if_neg hc, if_neg hstar]
  case case5 ih => exact (ih (trimEnd_of_cons (trimEnd_of_cons h))).slice
  case case6 c hc hstar d rest hbrackets =>
    refine readsBack_of_named h ?_
    rw [ofChars, if_neg hc, if_neg hstar, if_neg hbrackets]

/-- What has been read from a text is read from its own text again. -/
theorem readsBack_ofText (text : String) : (ofText text).ReadsBack :=
  readsBack_ofChars (Text.trimEnd_trimEnd _)

end GoType

/-- The scalar under every `Option` and `Vec`. -/
def SchemaType.scalarName : SchemaType → String
  | scalar name => name
  | optional elem => elem.scalarName
  | sequence elem => elem.scalarName

namespace TypeTable

/-- The entries as mappings to Go type text. -/
def texts (table : TypeTable) : List (String × String) :=
  table.entries.map fun e => (e.1, e.2.text)

/-- The tables that mappings to Go type text build. -/
inductive OfOverrides : TypeTable → Prop
  | empty : OfOverrides empty
  | withOverrides {table : TypeTable} (h : OfOverrides table)
    (overrides : List (String × String)) : OfOverrides (table.withOverrides overrides)

theorem ofOverrides_typeTable (s : Settings) : OfOverrides s.typeTable :=
  (OfOverrides.empty.withOverrides standardEntries).withOverrides s.types

variable {table : TypeTable}

theorem OfOverrides.readsBack (h : OfOverrides table) {e : String × GoType}
    (he : e ∈ table.entries) : e.2.ReadsBack := by
  induction h with
  | empty => exact absurd he List.not_mem_nil
  | withOverrides _ overrides ih =>
    rcases mem_withOverrides he with he | ⟨o, -, rfl⟩
    · exact ih he
    · exact GoType.readsBack_ofText o.2

/-- A table holds again what it holds when its entries are put into one with no name beside them. -/
theorem withOverrides_texts {base : TypeTable} (hread : ∀ e ∈ table.entries, e.2.ReadsBack)
    (hbase : ∀ name, table.get? name = none → base.get? name = none) :
    base.withOverrides table.texts = table := by
  refine ext_get? fun name => ?_
  cases hget : table.get? name with
  | some target =>
    have hmem := mem_of_get? hget
    have htext : (name, target.text) ∈ table.texts := List.mem_map_of_mem hmem
    have hne : table.texts.Pairwise fun a b => a.1 ≠ b.1 := List.pairwise_map.2 table.pairwise_ne
    rw [get?_withOverrides_of_mem hne htext, hread _ hmem]
  | none =>
    have hlookup : table.texts.reverse.lookup name = none := by
      refine List.lookup_eq_none_iff.2 fun o ho => ?_
      obtain ⟨e, he, rfl⟩ := List.mem_map.1 (List.mem_reverse.1 ho)
      have hname := List.lookup_eq_none_iff.1 hget e he
      exact hname
    rw [get?_withOverrides, hlookup, hbase name hget]
    rfl

/-- A name that has no entry after overrides had none before. -/
theorem get?_eq_none_of_withOverrides {overrides : List (String × String)} {name : String}
    (h : (table.withOverrides overrides).get? name = none) : table.get? name = none := by
  rw [get?_withOverrides, Option.or_eq_none_iff] at h
  exact h.2

theorem OfOverrides.readsBack_resolve (h : OfOverrides table) {e : SchemaType}
    (he : table.get? e.scalarName = none →
      Text.trim e.scalarName.toList = e.scalarName.toList ∧ GoType.isMarked e.scalarName = false) :
    (table.resolve e).ReadsBack := by
  induction e with
  | scalar name =>
    rw [resolve]
    cases hget : table.get? name with
    | none =>
      obtain ⟨htrim, hmarked⟩ := he hget
      exact GoType.readsBack_named htrim hmarked
    | some target =>
      have hread := h.readsBack (mem_of_get? hget)
      exact hread
  | optional elem ih => exact (ih he).indirect
  | sequence elem ih => exact (ih he).slice

/-- Go types and type tables are read back from their text: every type that is read, the table of
settings from the texts of its entries, and what a table of mappings resolves a type to, unless a
name without an entry has blanks at its ends or begins with a marker. -/
theorem texts_read_back :
    (∀ text, (GoType.ofText text).ReadsBack) ∧
      (∀ s : Settings, standard.withOverrides s.typeTable.texts = s.typeTable) ∧
      ∀ table, OfOverrides table → ∀ e : SchemaType,
        (table.get? e.scalarName = none →
          Text.trim e.scalarName.toList = e.scalarName.toList ∧
            GoType.isMarked e.scalarName = false) →
        (table.resolve e).ReadsBack := by
  refine ⟨GoType.readsBack_ofText, fun s => ?_, fun table h e => h.readsBack_resolve⟩
  exact withOverrides_texts (fun e he => (ofOverrides_typeTable s).readsBack he)
    fun name hname => get?_eq_none_of_withOverrides hname

/-- Settings with blanks between markers and a name that has no entry. -/
theorem texts_read_back_log :
    OfOverrides (Settings.typeTable { types := [("U256", "* [] big.Int ")] }) ∧
      (Text.trim "types.Log".toList = "types.Log".toList ∧ GoType.isMarked "types.Log" = false) ∧
      ((Settings.typeTable { types := [("U256", "* [] big.Int ")] }).resolve
        (.scalar "types.Log")).ReadsBack := by
  have htable := ofOverrides_typeTable { types := [("U256", "* [] big.Int ")] }
  have hname : Text.trim "types.Log".toList = "types.Log".toList ∧
      GoType.isMarked "types.Log" = false := by decide +kernel
  exact ⟨htable, hname, texts_read_back.2.2 _ htable (.scalar "types.Log") fun _ => hname⟩

/-- A name that begins with a marker and has no entry is read back as a pointer. -/
example : ¬(empty.resolve (.scalar "*T")).ReadsBack := by decide +kernel

end TypeTable

end RpcBindings
