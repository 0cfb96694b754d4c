import RpcBindings.Generated
import RpcBindings.Json

/-!
Reports: what a run left out, and which types the settings map, as JSON.

Keys stand in increasing order.
-/

namespace RpcBindings

/-- A diagnostic in a report. -/
def Diagnostic.toJson (d : Diagnostic) : JsonValue :=
  .object [("fragment", .string d.fragment), ("kind", .string d.kind.key),
    ("reason", .string d.reason.message),
    ("subject", (d.subject.map JsonValue.string).getD .null)]

/-- The report of a run on the source in a file. -/
def GeneratedFile.report (f : GeneratedFile) (mode : Mode) (input : String) : JsonValue :=
  .object [("diagnostics", .array (f.diagnostics.map Diagnostic.toJson)),
    ("generated", .number f.generated), ("input", .string input), ("mode", .string mode.name),
    ("skipped", .number f.skipped)]

/-- A type table in a report. -/
def TypeTable.toJson (table : TypeTable) : JsonValue :=
  .object (table.entries.map fun e => (e.1, .string e.2.text))

end RpcBindings
