import RpcBindings.Client.CallSite
import RpcBindings.Client.ErrorBlock

/-!
Synchronous methods: what the batched form of a client method is made from.
-/

namespace RpcBindings

/-- A client method that is written around one synchronous call. -/
structure SyncMethod where
  receiverName : String
  receiverType : String
  /-- Name and parameters. -/
  signature : String
  resultName : String
  returnType : GoType
  /-- The statements before the call, without error blocks. -/
  before : String
  /-- The method's name on the wire, when the call gives it as a literal. -/
  wireName? : Option String
  /-- The arguments of the call after the address of the result. -/
  callArgs : String
  /-- The statements after the call, without error blocks. -/
  after : String
  deriving DecidableEq, Repr

namespace SyncMethod

/-- What the batched form returns: results are filled in later, so always through a pointer. -/
def batchedType (m : SyncMethod) : GoType :=
  m.returnType.indirect

/-- The text of the signature before its parameters. -/
def title (m : SyncMethod) : String :=
  .ofList (Text.trim (m.signature.toList.takeWhile (· != '(')))

end SyncMethod

namespace Masked

/-- Statements after a call without what still belongs to its line. -/
def afterCall (cs : List Char) : List Char :=
  (cs.dropWhile fun c => c == ' ' || c == '\t').dropWhile (· == ';')

/-- The method around a call site. There is none when its statements cannot be laid out. -/
def methodAt? (m : Masked) (receiver : Receiver) (c : CallSite) : Option SyncMethod := do
  let before ← Client.keptStatements? (m.slice c.bodyStart c.statement)
  let after ← Client.keptStatements? (afterCall (m.slice (c.args.stop + 1) c.returnAt))
  return {
    receiverName := receiver.name
    receiverType := receiver.type
    signature := .ofList (m.spanText c.signature)
    resultName := c.resultName
    returnType := c.returnType
    before := .ofList before
    wireName? := (c.rest.head?.bind Text.unquote?).map String.ofList
    callArgs := .ofList ([',', ' '].intercalate c.rest)
    after := .ofList after }

/-- What became of a function. There is no result when the statements of a method cannot be laid
out. -/
def readFunction? (m : Masked) (primitives : List String) (f : FunctionSpan) :
    Option (Outcome SyncMethod) :=
  let skip (reason : SkipReason) (name? : Option Span) : Outcome SyncMethod :=
    .skipped ⟨.clientFunction, name?.map fun s => .ofList (m.spanText s), reason,
      .ofList (m.spanText f.whole)⟩
  match m.receiverAfter? f.head with
  | none => some (skip .noNamedReceiver (m.nameAfter? f.head))
  | some receiver =>
    match m.nameAfter? receiver.stop with
    | none => some (skip .missingName none)
    | some name =>
      match m.callSite primitives f name with
      | .error reason => some (skip reason (some name))
      | .ok c => (m.methodAt? receiver c).map .found

end Masked

end RpcBindings
