import RpcBindings.CommandLine.Arguments
import RpcBindings.CommandLine.FileTree
import RpcBindings.Report
import RpcBindings.Settings.Reader

/-!
Sessions: what a command does with files and with its output.

Commands run on any host that has files and two streams of text; `Workspace` is a host that is a plain
value.
-/

namespace RpcBindings.CommandLine

/-- What commands need from their surroundings. -/
class Host (m : Type → Type) where
  /-- Whether a path leads to a file. -/
  isFile : String → m Bool
  /-- The text of a file, when it can be read. -/
  read? : String → m (Option String)
  /-- Makes a directory and those on the way to it, and says whether it is there now. -/
  makeDirs : String → m Bool
  /-- Writes a file, and says whether it could. -/
  write : String → String → m Bool
  /-- Writes to the output, and says whether it could. -/
  print : String → m Bool
  /-- Writes a line of notes. -/
  note : String → m Unit

/-- Why a command does not succeed. -/
inductive CommandFault where
  | load (path : String)
  | settings (fault : SettingsFault)
  | readInput (path : String)
  | noReceiver (path : String)
  | makeDirs (path : String)
  | write (path : String)
  | writeReport (path : String)
  | print
  /-- The program stops without a message of its own. -/
  | crash
  /-- The program never stops. -/
  | endlessSearch
  deriving DecidableEq, Repr

namespace CommandFault

/-- The wording of a fault. -/
def message? : CommandFault → Option String
  | load path => some ("Failed to load configuration: " ++ path)
  | settings _ => some "Invalid configuration"
  | readInput path => some ("Failed to read input: " ++ path)
  | noReceiver path => some ("Failed to rewrite " ++ path)
  | makeDirs path => some ("Failed to create directory: " ++ path)
  | write path => some ("Failed to write " ++ path)
  | writeReport path => some ("Failed to write report: " ++ path)
  | print => some "Failed to write to stdout"
  | crash => none
  | endlessSearch => none

/-- The fault of a run on the source in a file. -/
def ofRun (input : String) : RunFault → CommandFault
  | .settings fault => settings fault
  | .noReceiver => noReceiver input
  | .brokenCut => crash
  | .endlessSearch => endlessSearch

/-- The exit code of a command that does not succeed; none when it never exits. -/
def exitCode? : CommandFault → Option UInt32
  | crash => some 101
  | endlessSearch => none
  | _ => some 1

end CommandFault

section Commands

variable {m : Type → Type} [Monad m] [Host m]

/-- A command that may fail. -/
abbrev Action (m : Type → Type) := ExceptT CommandFault m

/-- Fails unless a step succeeds. -/
def require (fault : CommandFault) (step : m Bool) : Action m Unit := do
  unless ← step do throw fault

/-- What a step gives; fails when it gives nothing. -/
def obtain? {α : Type} (fault : CommandFault) (step : m (Option α)) : Action m α := do
  match ← step with
  | some a => return a
  | none => throw fault

/-- The file with settings that is read when none is named. -/
def standardPath : String := "rpcgen.toml"

/-- The settings in a file. -/
def loadFrom (path : String) : Action m Settings :=
  obtain? (.load path) (return (← Host.read? path).bind Settings.ofText?)

/-- The settings in the file that is named, or in the standard one if it is there, or else the
standard settings. -/
def load (path? : Option String) : Action m Settings := do
  match path? with
  | some path => loadFrom path
  | none => if ← Host.isFile (m := m) standardPath then loadFrom standardPath else return {}

/-- Fails when settings have a fault. -/
def check (s : Settings) : Action m Unit :=
  match s.fault? with
  | some fault => throw (.settings fault)
  | none => return

/-- Writes a generated file, or prints it when the path is a dash. -/
def writeOutput (path text : String) : Action m Unit := do
  if path = "-" then
    require .print (Host.print text)
  else
    match Path.parent? path with
    | some dir => require (.makeDirs dir) (Host.makeDirs dir)
    | none => pure ()
    require (.write path) (Host.write path text)

/-- Generates a file, and a report when one is wanted. -/
def generate (mode : Mode) (files : RunFiles) : Action m Unit := do
  let s ← load files.settings?
  check s
  let source ← obtain? (.readInput files.input) (Host.read? files.input)
  match mode.generate s source with
  | .error fault => throw (CommandFault.ofRun files.input fault)
  | .ok file =>
    writeOutput files.output file.source
    match files.report? with
    | none => pure ()
    | some path =>
      require (.writeReport path)
        (Host.write path ((file.report mode files.input).text ++ "\n"))

/-- Checks a file of settings and prints the types that it maps. -/
def checkSettings (path? : Option String) : Action m Unit := do
  let path := path?.getD standardPath
  let note (line : String) : Action m Unit := Host.note (m := m) line
  note ("Checking configuration: " ++ path)
  let s ← loadFrom path
  check s
  note ("✓ Client package: " ++ s.client.package)
  note ("✓ Structs package: " ++ s.structs.package)
  note ("✓ Bulk package: " ++ s.bulk.package)
  note ("✓ Type overrides: " ++ .ofList (Nat.toDigits 10 s.types.length))
  require .crash (Host.print (s.typeTable.toJson.text ++ "\n"))
  note ""
  note "Configuration is valid!"

/-- How the program is called. -/
def usage : String :=
  "rpcgen [-v] client --input FILE --output FILE [--config FILE] [--report FILE] " ++
    "[--namespace NAME]\n" ++
  "rpcgen [-v] structs --input FILE --output FILE [--config FILE] [--report FILE]\n" ++
  "rpcgen [-v] bulk --input FILE --output FILE [--config FILE] [--report FILE] [--client TYPE]\n" ++
  "rpcgen [-v] check-config [--config FILE]\n"

/-- Writes to the output and does not mind when it cannot. -/
def printAnyway (text : String) : Action m Unit := do
  let _ ← Host.print (m := m) text

/-- Carries out a request. -/
def perform : Request → Action m Unit
  | .help => printAnyway usage
  | .version => printAnyway "rpcgen 0.3.0\n"
  | .generate mode files => generate mode files
  | .checkSettings path? => checkSettings path?

/-- Runs a command line and gives the exit code. There is none when the program never exits. -/
def run (args : List String) : m (Option UInt32) := do
  match Request.ofArguments? args with
  | none =>
    Host.note usage
    return some 2
  | some request =>
    match ← (perform request).run with
    | .ok () => return some 0
    | .error fault =>
      match fault.message? with
      | some message => Host.note ("Error: " ++ message)
      | none => pure ()
      return fault.exitCode?

end Commands

/-! ## A host that is a value -/

/-- A file tree with a working directory, and what has been written to the two streams. -/
structure Workspace where
  tree : FileTree
  /-- Whether the output takes what is written to it. -/
  takesOutput : Bool
  output : String
  notes : List String

namespace Workspace

/-- A file tree before anything is written. -/
def ofTree (tree : FileTree) : Workspace := ⟨tree, true, "", []⟩

/-- Takes over a changed tree, if there is one, and says whether there is. -/
def change (tree? : Option FileTree) (w : Workspace) : Bool × Workspace :=
  match tree? with
  | some tree => (true, { w with tree })
  | none => (false, w)

instance : Host (StateM Workspace) where
  isFile path := do return (← get).tree.isFile path
  read? path := do return (← get).tree.read? path
  makeDirs path := fun w => change (w.tree.makeDirs? path) w
  write path text := fun w => change (w.tree.write? path text) w
  print text := fun w =>
    if w.takesOutput then (true, { w with output := w.output ++ text }) else (false, w)
  note line := modify fun w => { w with notes := w.notes ++ [line] }

/-- What a command line makes of a file tree, and its exit code. -/
def run (args : List String) (w : Workspace) : Option UInt32 × Workspace :=
  (CommandLine.run args : StateM Workspace (Option UInt32)).run w

end Workspace

end RpcBindings.CommandLine
