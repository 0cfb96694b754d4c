import RpcBindings.Generated
import RpcBindings.Proofs.Go.Struct
import RpcBindings.Proofs.Schema.TypeSpelling
import RpcBindings.Proofs.Text.Cut

/-!
Types of fields, from a schema to Go.

A record comes from a struct that is read from a fragment of the schema, and keeps the fields that no
attribute leaves out. Main statement: all fields whose type is written as a name with an entry, or as an
`Option` or a `Vec` of it, are declared with the Go type that the entry gives
(`GeneratedFile.declaresAll_of_entry`).
-/

namespace RpcBindings

open Rust

/-! ## Schema types -/

namespace SchemaType

variable {n : String}

theorem ofText?_name (h : IsTypeName n) : ofText? n = some (.scalar n) :=
  ofText?_text (e := .scalar n) h

theorem ofText?_option (h : IsTypeName n) :
    ofText? ("Option<" ++ n ++ ">") = some (.optional (.scalar n)) :=
  ofText?_text (e := .optional (.scalar n)) h

theorem ofText?_vec (h : IsTypeName n) :
    ofText? ("Vec<" ++ n ++ ">") = some (.sequence (.scalar n)) :=
  ofText?_text (e := .sequence (.scalar n)) h

end SchemaType

/-! ## Fields that are kept -/

/-- A struct has a field that no attribute leaves out. -/
def Rust.StructItem.Keeps (item : StructItem) (f : StructField) : Prop :=
  ∃ fields, item.fields? = some fields ∧ f ∈ fields ∧ Schema.isOmitted f.attributes = false

namespace Record

open Masked

/-- A record keeps what its struct keeps. -/
theorem exists_field_of_keeps {item : StructItem} {r : Record} {f : StructField}
    (h : ofStruct item = .ok r) (hf : item.Keeps f) :
    ∃ field ∈ r.fields, field.sourceName = plainName f.name ∧ field.type = .ofRust f.type := by
  obtain ⟨fields, hfields, hmem, hkept⟩ := hf
  unfold ofStruct at h
  rw [hfields] at h
  split at h
  · exact absurd h nofun
  · split at h
    · exact absurd h nofun
    · rw [← Except.ok.inj h]
      refine ⟨⟨plainName f.name, .ofRust f.type, Schema.docLines f.attributes,
        Schema.rename? f.attributes⟩, List.mem_filterMap.2 ⟨f, hmem, ?_⟩, rfl, rfl⟩
      unfold fieldOf?
      rw [hkept]
      rfl

theorem exists_recordAt_of_mem {m : Masked} {places : List Nat} {start : Nat}
    {o : Outcome Record} (h : o ∈ m.recordsFrom places start) :
    ∃ i, o = m.recordAt i (m.structEnd i).1 (m.structEnd i).2 := by
  induction places generalizing start with
  | nil => exact absurd h List.not_mem_nil
  | cons i places ih =>
    rw [recordsFrom] at h
    split at h
    · exact ih h
    · rcases List.mem_cons.1 h with rfl | h
      · exact ⟨i, rfl⟩
      · exact ih h

/-- A record is read from a struct in the schema. -/
theorem exists_item_of_found {schema : String} {r : Record} (h : .found r ∈ readAll schema) :
    ∃ fragment item, fragment.toList <:+: schema.toList ∧
      StructItem.ofText? fragment = some item ∧ ofStruct item = .ok r := by
  obtain ⟨i, hi⟩ := exists_recordAt_of_mem h
  unfold recordAt at hi
  extract_lets fragment subject? skip at hi
  split at hi
  · exact absurd hi nofun
  · split at hi
    · rename_i record hread
      obtain rfl := Outcome.found.inj hi
      unfold ofText at hread
      split at hread
      · exact absurd hread nofun
      · rename_i item hitem
        refine ⟨fragment, item, ?_, hitem, hread⟩
        rw [String.toList_ofList]
        exact Text.isInfix_cut _ _ _
    · exact absurd hi nofun

end Record

namespace GeneratedFile

/-- A Rust type that all records declare with one Go type: every field that is kept and whose type is
the one that the text is read as. -/
structure DeclaresAll (s : Settings) (schema rust go : String) : Prop where
  readable : (RustType.ofText? rust).isSome = true
  declared : ∀ r, .found r ∈ Record.readAll schema →
    Go.structText s.typeTable r ∈ (FileBody.structs s schema).declarations
  read : ∀ r, .found r ∈ Record.readAll schema → ∃ fragment item,
    fragment.toList <:+: schema.toList ∧ StructItem.ofText? fragment = some item ∧
      Record.ofStruct item = .ok r
  fields : ∀ r item f, Record.ofStruct item = .ok r → item.Keeps f →
    RustType.ofText? rust = some f.type →
      Go.DeclaresField (Go.structText s.typeTable r) (Casing.upperCamel (plainName f.name)) go

theorem declaresAll_of_ofText? {s : Settings} {rust : String} {t : SchemaType}
    (h : SchemaType.ofText? rust = some t) (schema : String) :
    DeclaresAll s schema rust (s.typeTable.resolve t).text where
  readable := by
    obtain ⟨u, hu, -⟩ := Option.map_eq_some_iff.1 h
    rw [hu]
    rfl
  declared r hr := List.mem_map.2 ⟨r, List.mem_filterMap.2 ⟨.found r, hr, rfl⟩, rfl⟩
  read r hr := Record.exists_item_of_found hr
  fields r item f hitem hf hrust := by
    obtain ⟨field, hfield, hname, htype⟩ := Record.exists_field_of_keeps hitem hf
    have hschema : field.type = t := by
      unfold SchemaType.ofText? at h
      rw [hrust] at h
      rw [htype]
      exact Option.some.inj h
    have hdeclared := Go.declaresField_structText s.typeTable hfield
    rwa [hname, hschema] at hdeclared

/-- Fields of a name with an entry, of an `Option` and of a `Vec` of it are declared with the Go type of
the entry, an indirect one, and a slice. -/
theorem declaresAll_of_entry {s : Settings} {n : String} {target : GoType} (hn : IsTypeName n)
    (h : (n, target) ∈ s.typeTable.entries) (schema : String) :
    DeclaresAll s schema n target.text ∧
      DeclaresAll s schema ("Option<" ++ n ++ ">") (GoType.optionalText target.text) ∧
      DeclaresAll s schema ("Vec<" ++ n ++ ">") ("[]" ++ target.text) := by
  obtain ⟨hscalar, hoptional, hsequence⟩ := TypeTable.text_resolve h
  exact ⟨hscalar ▸ declaresAll_of_ofText? (SchemaType.ofText?_name hn) schema,
    hoptional ▸ declaresAll_of_ofText? (SchemaType.ofText?_option hn) schema,
    hsequence ▸ declaresAll_of_ofText? (SchemaType.ofText?_vec hn) schema⟩

end GeneratedFile

end RpcBindings
