import RpcBindings.Casing
import RpcBindings.Go.TypeTable
import RpcBindings.Schema.Record

/-!
Records as Go structs.

Every field has one row: its name, its type and a tag with its key on the wire, in columns.
-/

namespace RpcBindings.Go

/-- A row of a struct. -/
structure FieldRow where
  name : String
  type : String
  tag : String
  deriving DecidableEq, Repr

/-- The row of a field. -/
def FieldRow.ofField (table : TypeTable) (f : RecordField) : FieldRow :=
  let key := f.rename?.getD (Casing.lowerCamel f.sourceName)
  ⟨Casing.upperCamel f.sourceName, (table.resolve f.type).text, "`json:\"" ++ key ++ "\"`"⟩

/-- Text with spaces after it up to a width. -/
def padTo (width : Nat) (text : String) : String :=
  text ++ .ofList (List.replicate (width - text.length) ' ')

/-- The length of the longest text in bytes. -/
def columnWidth (texts : List String) : Nat :=
  ((texts.map String.utf8ByteSize).max?).getD 0

/-- Documentation lines with an indentation. -/
def docText (indent : String) (docs : List String) : String :=
  String.join (docs.map fun doc => indent ++ "// " ++ doc ++ "\n")

/-- A row in columns of two widths. -/
def FieldRow.text (nameWidth typeWidth : Nat) (r : FieldRow) : String :=
  "\t" ++ padTo nameWidth r.name ++ " " ++ padTo typeWidth r.type ++ " " ++ r.tag ++ "\n"

/-- A record as a Go struct. -/
def structText (table : TypeTable) (r : Record) : String :=
  let row (f : RecordField) := FieldRow.ofField table f
  let nameWidth := columnWidth (r.fields.map fun f => (row f).name)
  let typeWidth := columnWidth (r.fields.map fun f => (row f).type)
  docText "" r.docs ++ "type " ++ r.name ++ " struct \x7b\n" ++
    String.join (r.fields.map fun f => docText "\t" f.docs ++ (row f).text nameWidth typeWidth) ++
    "\x7d"

end RpcBindings.Go
