import RpcBindings.Settings.Basic
import RpcBindings.Toml.Reader

/-!
Reading settings from TOML.

Sections and fields that are missing have their standard values; unknown ones are refused. A section
may also be an array, which gives its fields in order.
-/

namespace RpcBindings

namespace Settings

open Toml

/-- The value of each field that a section gives, when it gives only fields of its own. -/
def fields? (names : List String) : Value → Option (List (String × Value))
  | .table entries => if entries.all fun e => names.contains e.1 then some entries else none
  | .array elems => some (names.zip elems)
  | .string _ => none
  | .dateTime _ => none
  | .other => none

/-- A string. -/
def text? : Value → Option String
  | .string text => some text
  | _ => none

/-- A list of strings. -/
def texts? : Value → Option (List String)
  | .array elems => elems.mapM text?
  | _ => none

/-- A field, read as `read?` does, or its standard value when it is not given. -/
def field? {α : Type} (read? : Value → Option α) (entries : List (String × Value)) (name : String)
    (standard : α) : Option α :=
  match entries.lookup name with
  | none => some standard
  | some v => read? v

/-- The name under which a date or a time maps to its text. -/
def dateTimeName : String := "$__toml_private_datetime"

/-- The mappings of the type section, ordered by name. A date or a time is a mapping too. -/
def types? : Value → Option (List (String × String))
  | .dateTime v => some [(dateTimeName, v.text)]
  | .table entries =>
    (entries.mapM fun e => (text? e.2).map (e.1, ·)).map
      (·.mergeSort fun a b => decide (a.1 ≤ b.1))
  | _ => none

end Settings

open Settings

/-- The client section. -/
def ClientSettings.ofToml? (v : Toml.Value) : Option ClientSettings := do
  let fs ← fields? ["package", "imports", "receiver", "core_field", "core_type", "invoke",
    "type_prefix", "type_suffix", "result_wrappers"] v
  let d : ClientSettings := {}
  return {
    package := ← field? text? fs "package" d.package
    imports := ← field? texts? fs "imports" d.imports
    receiver := ← field? text? fs "receiver" d.receiver
    coreField := ← field? text? fs "core_field" d.coreField
    coreType := ← field? text? fs "core_type" d.coreType
    invoke := ← field? text? fs "invoke" d.invoke
    typePrefix := ← field? text? fs "type_prefix" d.typePrefix
    typeSuffix := ← field? text? fs "type_suffix" d.typeSuffix
    resultWrappers := ← field? texts? fs "result_wrappers" d.resultWrappers }

/-- The struct section. -/
def StructSettings.ofToml? (v : Toml.Value) : Option StructSettings := do
  let fs ← fields? ["package", "imports"] v
  let d : StructSettings := {}
  return {
    package := ← field? text? fs "package" d.package
    imports := ← field? texts? fs "imports" d.imports }

/-- The batch section. -/
def BulkSettings.ofToml? (v : Toml.Value) : Option BulkSettings := do
  let fs ← fields? ["package", "imports", "primitives", "client_prefix", "client_suffix",
    "caller_prefix", "caller_suffix", "caller_core_type", "queue_elem_type", "queue_field",
    "descriptor_fn", "execute_fn", "extra_functions"] v
  let d : BulkSettings := {}
  return {
    package := ← field? text? fs "package" d.package
    imports := ← field? texts? fs "imports" d.imports
    primitives := ← field? texts? fs "primitives" d.primitives
    clientPrefix := ← field? text? fs "client_prefix" d.clientPrefix
    clientSuffix := ← field? text? fs "client_suffix" d.clientSuffix
    callerPrefix := ← field? text? fs "caller_prefix" d.callerPrefix
    callerSuffix := ← field? text? fs "caller_suffix" d.callerSuffix
    callerCoreType := ← field? text? fs "caller_core_type" d.callerCoreType
    queueElemType := ← field? text? fs "queue_elem_type" d.queueElemType
    queueField := ← field? text? fs "queue_field" d.queueField
    descriptorFn := ← field? text? fs "descriptor_fn" d.descriptorFn
    executeFn := ← field? text? fs "execute_fn" d.executeFn
    extraFunctions := ← field? texts? fs "extra_functions" d.extraFunctions }

/-- All settings of a document. -/
def Settings.ofToml? (v : Toml.Value) : Option Settings := do
  let fs ← fields? ["types", "client", "structs", "bulk"] v
  return {
    types := ← field? types? fs "types" []
    client := ← field? ClientSettings.ofToml? fs "client" {}
    structs := ← field? StructSettings.ofToml? fs "structs" {}
    bulk := ← field? BulkSettings.ofToml? fs "bulk" {} }

/-- Reads the text of a settings file. -/
def Settings.ofText? (text : String) : Option Settings :=
  (Toml.parse? text).bind Settings.ofToml?

end RpcBindings
