import RpcBindings.Client.File
import RpcBindings.Go.Batch
import RpcBindings.Go.ImportClause
import RpcBindings.Go.Struct
import RpcBindings.Go.Stub
import RpcBindings.Settings.Fault

/-!
Generated files: the three ways to make a Go file from one source.

Every declaration of the source counts, either as generated or with a diagnostic. There is no file for
faulty settings, for a client file without methods, when text cannot be cut, and when the search for the
use of an import does not end.
-/

namespace RpcBindings

/-- A Go file below its head. -/
structure FileBody where
  declarations : List String
  /-- The declarations of the source that were left out. -/
  diagnostics : List Diagnostic
  /-- How many declarations of the source were generated. -/
  generated : Nat
  deriving DecidableEq, Repr

/-- A Go file. -/
structure GeneratedFile extends FileBody where
  header : String
  deriving DecidableEq, Repr

/-- Why there is no file. -/
inductive RunFault where
  | settings (fault : SettingsFault)
  | noReceiver
  /-- A text would have to be cut off a character boundary. -/
  | brokenCut
  /-- The search for the use of an import goes on for ever. -/
  | endlessSearch
  deriving DecidableEq, Repr

namespace RunFault

/-- The wording of a fault. A broken cut stops the program and has none, and an endless search never
comes to one. -/
def message? : RunFault → Option String
  | settings fault => some ("configuration error: " ++ fault.message)
  | noReceiver => some "invalid input: no method with a receiver found in client source"
  | brokenCut => none
  | endlessSearch => none

end RunFault

namespace GeneratedFile

/-- Declarations with an empty line between two of them. -/
def joinDeclarations (declarations : List String) : String :=
  "\n\n".intercalate declarations

/-- The whole text of the file. -/
def source (f : GeneratedFile) : String :=
  f.header ++ joinDeclarations f.declarations ++ "\n"

/-- How many declarations of the source were left out. -/
def skipped (f : GeneratedFile) : Nat :=
  f.diagnostics.length

/-- The declaration of an outcome: what it was found to be, or a comment in its place. -/
def declarationOf {α : Type} (render : α → String) : Outcome α → String
  | .found value => render value
  | .skipped d => d.marker

end GeneratedFile

namespace FileBody

/-- Declarations that are made from the outcomes of a source. -/
def ofOutcomes {α : Type} (declarations : List String) (outcomes : List (Outcome α)) : FileBody where
  declarations
  diagnostics := outcomes.filterMap Outcome.skipped?
  generated := (outcomes.filterMap Outcome.found?).length

/-- The file of a package, with imports to choose from. -/
def file (b : FileBody) (package : String) (imports : List String) : Except RunFault GeneratedFile :=
  match Go.headerText? package imports (GeneratedFile.joinDeclarations b.declarations) with
  | none => .error .endlessSearch
  | some header => .ok { b with header }

end FileBody

namespace GeneratedFile

/-! ## Declarations -/

/-- The declarations of an interface. -/
def interfaceDeclarations (s : Settings) (i : RpcInterface) : List String :=
  Go.clientTypeText s.client i.nspace ::
    i.members.map (declarationOf (Go.stubText s.client s.typeTable i.nspace))

/-- A declaration with comment lines above it. -/
def withComments (comments : List String) (declaration : String) : String :=
  if comments.isEmpty then declaration else "\n".intercalate comments ++ "\n" ++ declaration

/-- The declarations of some functions, each with the comments before it; comments after the last
one are a declaration of their own. -/
def functionDeclarations (s : BulkSettings) : List String → List ClientFunction → List String
  | comments, [] => if comments.isEmpty then [] else ["\n".intercalate comments]
  | comments, f :: rest =>
    withComments comments (declarationOf (Go.batchText s) f.outcome) ::
      functionDeclarations s f.trailingComments rest

/-- The functions that the settings add, without blanks around them. -/
def extraDeclarations (s : BulkSettings) : List String :=
  (s.extraFunctions.map fun f => String.ofList (Text.trim f.toList)).filter (!·.isEmpty)

end GeneratedFile

namespace FileBody

open GeneratedFile

/-! ## The three kinds of files -/

variable [Rust.ParserMessages]

/-- Client stubs for every interface of a schema. -/
def stubs (s : Settings) (nspace? : Option String) (schema : String) : FileBody :=
  let interfaces := RpcInterface.readAll ⟨nspace?, s.client.resultWrappers⟩ schema
  .ofOutcomes (interfaces.flatMap (interfaceDeclarations s)) (interfaces.flatMap (·.members))

/-- Structs for every record of a schema. What is left out leaves no comment. -/
def structs (s : Settings) (schema : String) : FileBody :=
  let outcomes := Record.readAll schema
  .ofOutcomes ((outcomes.filterMap Outcome.found?).map (Go.structText s.typeTable)) outcomes

/-- The batch caller for a client type of a client file. -/
def caller (s : BulkSettings) (clientType : String) (f : ClientFile) : FileBody :=
  .ofOutcomes (Go.callerText s clientType ::
      (functionDeclarations s f.leadingComments f.functions ++ extraDeclarations s))
    (f.functions.map (·.outcome))

end FileBody

namespace GeneratedFile

/-- The imports that a batch caller has to choose from, those of its client file last. -/
def callerImports (s : BulkSettings) (f : ClientFile) : List String :=
  s.imports ++ f.imports.map Go.Import.spec

/-- The batch caller for the client type that is asked for, or else for the first one of a client
file. -/
def batchCaller (s : Settings) (clientType? : Option String) (source : String) :
    Except RunFault GeneratedFile :=
  match ClientFile.read? ⟨s.bulk.primitives, clientType?⟩ source with
  | none => .error .brokenCut
  | some f =>
    match f.clientType? with
    | none => .error .noReceiver
    | some clientType => (FileBody.caller s.bulk clientType f).file s.bulk.package (callerImports s.bulk f)

end GeneratedFile

/-! ## Runs -/

/-- What is made from a source. -/
inductive Mode where
  | stubs (nspace? : Option String)
  | structs
  | batchCaller (clientType? : Option String)
  deriving DecidableEq, Repr

namespace Mode

/-- The name of a mode. -/
def name : Mode → String
  | stubs _ => "client"
  | structs => "structs"
  | batchCaller _ => "bulk"

variable [Rust.ParserMessages]

/-- Makes a file under settings that have no fault. -/
def generate (mode : Mode) (s : Settings) (source : String) : Except RunFault GeneratedFile :=
  match mode with
  | stubs nspace? =>
    (FileBody.stubs s nspace? source).file s.client.package s.client.imports
  | structs => (FileBody.structs s source).file s.structs.package s.structs.imports
  | batchCaller clientType? => GeneratedFile.batchCaller s clientType? source

/-- A complete run: the settings are checked first. -/
def run (mode : Mode) (s : Settings) (source : String) : Except RunFault GeneratedFile :=
  match s.fault? with
  | some fault => .error (.settings fault)
  | none => mode.generate s source

end Mode

end RpcBindings
