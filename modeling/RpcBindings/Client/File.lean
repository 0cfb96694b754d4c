import RpcBindings.Client.Method
import RpcBindings.Go.ImportClause

/-!
Client files: the functions of an existing Go client and the comments between them.
-/

namespace RpcBindings

/-- A function of a client file, and the comments between it and the next one. -/
structure ClientFunction where
  outcome : Outcome SyncMethod
  trailingComments : List String

/-- A client file. -/
structure ClientFile where
  imports : List Go.Import
  /-- The comment lines directly above the first function. -/
  leadingComments : List String
  /-- The receiver type whose methods are wanted, when there is one. -/
  clientType? : Option String
  functions : List ClientFunction

/-- How client files are read. -/
structure ClientOptions where
  /-- The names of the methods that make a synchronous call. -/
  primitives : List String
  /-- The receiver type whose methods are wanted; the first one of the file when none is given. -/
  clientType? : Option String

namespace Outcome

/-- A method of another receiver type than the wanted one is left out. -/
def ofType (wanted : Option String) (fragment : String) : Outcome SyncMethod → Outcome SyncMethod
  | skipped d => skipped d
  | found m =>
    match wanted with
    | none => found m
    | some w =>
      if w = m.receiverType then found m
      else skipped ⟨.clientFunction, some m.title, .otherReceiver m.receiverType w, fragment⟩

end Outcome

namespace Masked

/-- The comment lines between two offsets. -/
def commentsBetween (m : Masked) (start stop : Nat) : List String :=
  (Text.commentLines (m.slice start stop)).map String.ofList

/-- What became of some functions, each with the comments after it. There is no result when the
statements of one cannot be laid out. -/
def readFunctions? (m : Masked) (primitives : List String) (wanted : Option String) :
    List FunctionSpan → Option (List ClientFunction)
  | [] => some []
  | f :: rest => do
    let outcome ← m.readFunction? primitives f
    let next := (rest.head?.map (·.start)).getD m.sourceSize
    let later ← m.readFunctions? primitives wanted rest
    return ⟨outcome.ofType wanted (.ofList (m.spanText f.whole)),
      m.commentsBetween (f.closed + 1) next⟩ :: later

/-- The first receiver type of some functions. -/
def firstReceiverType? (m : Masked) (fs : List FunctionSpan) : Option String :=
  fs.findSome? fun f => (m.receiverAfter? f.head).map (·.type)

end Masked

/-- Reads a client file. There is no result when a text would have to be cut off a character
boundary. -/
def ClientFile.read? (options : ClientOptions) (source : String) : Option ClientFile := do
  let m := Masked.ofSource .go source.toList
  let fs := m.functions
  let clientType? := options.clientType?.or (m.firstReceiverType? fs)
  let functions ← m.readFunctions? options.primitives clientType? fs
  let imports ← m.imports?
  let leadingComments := match fs with
    | [] => []
    | f :: _ => m.commentsBetween (m.decorationStart f.start) f.start
  return ⟨imports, leadingComments, clientType?, functions⟩

end RpcBindings
