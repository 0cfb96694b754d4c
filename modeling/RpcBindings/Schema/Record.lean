import RpcBindings.Diagnostic
import RpcBindings.Masked.Nesting
import RpcBindings.Schema.Annotation
import RpcBindings.Schema.Reading

/-!
Records: the public structs of a schema.

Each `struct` is cut out of the source with the comments and attributes above it and read on its
own, so that a declaration that cannot be read hides none of the others.
-/

namespace RpcBindings

/-- A field of a record. -/
structure RecordField where
  sourceName : String
  type : SchemaType
  docs : List String
  /-- The key on the wire, when it is not made from the name. -/
  rename? : Option String
  deriving DecidableEq, Repr

/-- A record. -/
structure Record where
  name : String
  docs : List String
  fields : List RecordField
  deriving DecidableEq, Repr

namespace Record

open Rust

/-- A field of a record, unless its options leave it out. -/
def fieldOf? (f : StructField) : Option RecordField :=
  if Schema.isOmitted f.attributes then none
  else some ⟨plainName f.name, .ofRust f.type, Schema.docLines f.attributes,
    Schema.rename? f.attributes⟩

/-- The record that a struct is, or why it is none. -/
def ofStruct (s : StructItem) : Except SkipReason Record :=
  if s.visibility != .everywhere then .error .notPublic
  else if s.isGeneric then .error .genericStruct
  else match s.fields? with
    | none => .error .unnamedFields
    | some fields => .ok ⟨s.name, Schema.docLines s.attributes, fields.filterMap fieldOf?⟩

/-- Reads the text of one declaration. -/
def ofText [ParserMessages] (text : String) : Except SkipReason Record :=
  match StructItem.ofText? text with
  | none => .error (.notAStruct (ParserMessages.ofStruct text))
  | some s => ofStruct s

end Record

namespace Masked

/-- Where a `struct` at an offset ends, and why it is not read when it is known already. -/
def structEnd (m : Masked) (i : Nat) : Nat × Option SkipReason :=
  let size := m.sourceSize
  match m.findTopLevel? i size '{', m.findTopLevel? i size ';' with
  | some opened, none => body opened
  | some opened, some semicolon =>
    if opened < semicolon then body opened else (semicolon + 1, some .tupleOrUnitStruct)
  | none, some semicolon => (semicolon + 1, some .tupleOrUnitStruct)
  | none, none => (size, some .noStructBody)
where
  body (opened : Nat) : Nat × Option SkipReason :=
    match m.closer? opened with
    | some closed => (closed + 1, none)
    | none => (m.sourceSize, some .unbalancedBraces)

section Reading

variable [Rust.ParserMessages]

/-- What became of the `struct` at an offset that ends at another. -/
def recordAt (m : Masked) (i stop : Nat) (reason? : Option SkipReason) : Outcome Record :=
  let fragment := String.ofList (m.slice (m.decorationStart i) stop)
  let subject? := (m.nameAfter? (i + "struct".length)).map fun s => String.ofList (m.spanText s)
  let skip (reason : SkipReason) : Outcome Record := .skipped ⟨.record, subject?, reason, fragment⟩
  match reason? with
  | some reason => skip reason
  | none =>
    match Record.ofText fragment with
    | .ok record => .found record
    | .error reason => skip reason

/-- What became of the declarations among some places of `struct`, those before an offset left
out. -/
def recordsFrom (m : Masked) : List Nat → Nat → List (Outcome Record)
  | [], _ => []
  | i :: rest, start =>
    if i < start then m.recordsFrom rest start
    else
      let e := m.structEnd i
      m.recordAt i e.1 e.2 :: m.recordsFrom rest e.1

end Reading

end Masked

/-- What became of every struct of a schema, in order. -/
def Record.readAll [Rust.ParserMessages] (source : String) : List (Outcome Record) :=
  let m := Masked.ofSource .rust source.toList
  m.recordsFrom (m.wordStarts "struct") 0

end RpcBindings
