import RpcBindings.Generated
import RpcBindings.Text.Affix

/-!
Arguments: what a command line asks for.

Options and switches may stand in any order, a value may be attached to its option or follow it, and
short switches may share one dash. Reading ends at the first argument that is wrong, or that asks for
help.
-/

namespace RpcBindings.CommandLine

/-- The commands. -/
inductive Command where
  | stubs
  | structs
  | batchCaller
  | checkSettings
  deriving DecidableEq, Repr

/-- The options with a value. -/
inductive ValueOption where
  | input
  | output
  | settings
  | report
  | nspace
  | clientType
  deriving DecidableEq, Repr

/-- The options without one. -/
inductive Switch where
  | verbose
  | help
  | version
  deriving DecidableEq, Repr

namespace ValueOption

/-- The name after two dashes. -/
def long : ValueOption → String
  | input => "input"
  | output => "output"
  | settings => "config"
  | report => "report"
  | nspace => "namespace"
  | clientType => "client"

/-- The letter after one dash. -/
def short? : ValueOption → Option Char
  | input => some 'i'
  | output => some 'o'
  | settings => some 'c'
  | report => none
  | nspace => some 'n'
  | clientType => none

/-- Whether the value is the path of a file, which cannot be empty. -/
def isPath : ValueOption → Bool
  | input => true
  | output => false
  | settings => true
  | report => true
  | nspace => false
  | clientType => false

end ValueOption

namespace Switch

def long : Switch → String
  | verbose => "verbose"
  | help => "help"
  | version => "version"

def short : Switch → Char
  | verbose => 'v'
  | help => 'h'
  | version => 'V'

end Switch

namespace Command

def all : List Command := [stubs, structs, batchCaller, checkSettings]

def name : Command → String
  | stubs => "client"
  | structs => "structs"
  | batchCaller => "bulk"
  | checkSettings => "check-config"

def ofName? (name : String) : Option Command :=
  all.find? (·.name = name)

/-- The options of a command. -/
def options : Command → List ValueOption
  | stubs => [.input, .output, .settings, .report, .nspace]
  | structs => [.input, .output, .settings, .report]
  | batchCaller => [.input, .output, .settings, .report, .clientType]
  | checkSettings => [.settings]

end Command

/-- What may stand at some place of a command line. -/
structure Scope where
  options : List ValueOption
  switches : List Switch

/-- Before the command. -/
def Scope.top : Scope := ⟨[], [.verbose, .help, .version]⟩

/-- After a command. -/
def Scope.ofCommand (c : Command) : Scope := ⟨c.options, [.verbose, .help]⟩

/-- What one argument is. -/
inductive Argument where
  /-- Two dashes, after which no options stand. -/
  | escape
  | option (o : ValueOption) (value? : Option String)
  | verbose
  | help
  | version
  /-- An argument without a dash. -/
  | plain
  /-- An option or switch that is not known. -/
  | unknown
  deriving DecidableEq, Repr

namespace Switch

def toArgument : Switch → Argument
  | verbose => .verbose
  | help => .help
  | version => .version

end Switch

namespace Scope

/-- A name after two dashes, with its value after `=` if there is one. -/
def readLong (s : Scope) (name : String) (value? : Option String) : Argument :=
  match s.options.find? (·.long = name) with
  | some o => .option o value?
  | none =>
    match s.switches.find? (·.long = name), value? with
    | some w, none => w.toArgument
    | _, _ => .unknown

/-- Letters after one dash. Switches go on to the next letter, the rest after an option's letter is
its value. -/
def readShort (s : Scope) : List Char → Argument
  | [] => .verbose
  | c :: cs =>
    match s.options.find? (·.short? = some c) with
    | some o =>
      match cs with
      | [] => .option o none
      | '=' :: value => .option o (some (.ofList value))
      | value => .option o (some (.ofList value))
    | none =>
      match s.switches.find? (·.short = c) with
      | some .verbose => s.readShort cs
      | some w => w.toArgument
      | none => .unknown

/-- Reads one argument. -/
def read (s : Scope) (arg : String) : Argument :=
  match arg.toList with
  | ['-', '-'] => .escape
  | '-' :: '-' :: cs =>
    match Text.splitAtChar? '=' cs with
    | some (name, value) => s.readLong (.ofList name) (some (.ofList value))
    | none => s.readLong (.ofList cs) none
  | '-' :: c :: cs => s.readShort (c :: cs)
  | _ => .plain

end Scope

/-- Whether an argument can be the value of the option before it. -/
def isValue (arg : String) : Bool :=
  match arg.toList with
  | '-' :: _ :: _ => false
  | _ => true

/-- The values that are given. -/
abbrev Given := List (ValueOption × String)

/-- Adds a value. An option is given once, and a path is not empty. -/
def addValue? (given : Given) (o : ValueOption) (value : String) : Option Given :=
  if (given.lookup o).isSome || (o.isPath && value.isEmpty) then none
  else some ((o, value) :: given)

/-- What follows a command. -/
inductive Options where
  | values (given : Given)
  | help
  deriving DecidableEq, Repr

/-- Reads what follows a command. -/
def readOptions (s : Scope) : Given → List String → Option Options
  | given, [] => some (.values given)
  | given, arg :: rest =>
    match s.read arg with
    | .escape => if rest.isEmpty then some (.values given) else none
    | .verbose => readOptions s given rest
    | .help => some .help
    | .option o (some value) => (addValue? given o value).bind fun g => readOptions s g rest
    | .option o none =>
      match rest with
      | [] => none
      | value :: rest =>
        if isValue value then (addValue? given o value).bind fun g => readOptions s g rest
        else none
    | .version => none
    | .plain => none
    | .unknown => none

/-- The files of a run: where its source is, where its output goes, and which settings and report
files it has. -/
structure RunFiles where
  input : String
  output : String
  settings? : Option String
  report? : Option String
  deriving DecidableEq, Repr

/-- What a command line asks for. -/
inductive Request where
  | help
  | version
  | generate (mode : Mode) (files : RunFiles)
  | checkSettings (path? : Option String)
  deriving DecidableEq, Repr

/-- The files of a run; the input and the output must be given. -/
def runFiles? (given : Given) : Option RunFiles :=
  match given.lookup .input, given.lookup .output with
  | some input, some output =>
    some ⟨input, output, given.lookup .settings, given.lookup .report⟩
  | _, _ => none

/-- What a command with its options asks for. -/
def Command.request? (c : Command) (given : Given) : Option Request :=
  match c with
  | .stubs => (runFiles? given).map (.generate (.stubs (given.lookup .nspace)))
  | .structs => (runFiles? given).map (.generate .structs)
  | .batchCaller =>
    (runFiles? given).map (.generate (.batchCaller (given.lookup .clientType)))
  | .checkSettings => some (.checkSettings (given.lookup .settings))

/-- Reads the options of a command. -/
def Command.read? (c : Command) (args : List String) : Option Request :=
  match readOptions (.ofCommand c) [] args with
  | none => none
  | some .help => some .help
  | some (.values given) => c.request? given

/-- Whether help can be given on what some arguments name: everything, help itself, or a command. -/
def isHelpTopic : List String → Bool
  | [] => true
  | [name] => name = "help" || (Command.ofName? name).isSome
  | _ => false

/-- Reads a command line. There is no result when it is wrong. -/
def Request.ofArguments? : List String → Option Request
  | [] => none
  | arg :: rest =>
    match Command.ofName? arg with
    | some c => c.read? rest
    | none =>
      if arg = "help" then if isHelpTopic rest then some .help else none
      else match Scope.top.read arg with
        | .verbose => Request.ofArguments? rest
        | .help => some .help
        | .version => some .version
        | _ => none

end RpcBindings.CommandLine
