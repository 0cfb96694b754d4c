import RpcBindings.Client.Method
import RpcBindings.Settings.Basic

/-!
Batch callers: the type that queues the calls of a client, and the batched form of its methods.
-/

namespace RpcBindings.Go

/-- The batch caller for a client type, with its constructor and with the method that sends the
queue. -/
def callerText (s : BulkSettings) (clientType : String) : String :=
  let caller := s.callerName clientType
  let queue := s.queueField ++ " *[]" ++ s.queueElemType
  "// " ++ caller ++ " queues " ++ clientType ++ " calls and sends them in one batch request.\n" ++
  "type " ++ caller ++ " struct \x7b\n" ++
  "\tcaller " ++ s.callerCoreType ++ "\n" ++
  "\t" ++ queue ++ "\n" ++
  "\x7d\n" ++
  "\n" ++
  "// New" ++ caller ++ " creates a " ++ caller ++ " appending to " ++ s.queueField ++ ".\n" ++
  "func New" ++ caller ++ "(caller " ++ s.callerCoreType ++ ", " ++ queue ++ ") *" ++ caller ++
    " \x7b\n" ++
  "\treturn &" ++ caller ++ "\x7bcaller, " ++ s.queueField ++ "\x7d\n" ++
  "\x7d\n" ++
  "\n" ++
  "// Execute sends all queued calls in one batch request.\n" ++
  "func (b *" ++ caller ++ ") Execute() ([]error, error) \x7b\n" ++
  "\treturn " ++ s.executeFn ++ "(b.caller, b." ++ s.queueField ++ ")\n" ++
  "\x7d"

/-- The expression that makes room for a result. -/
def allocation : GoType → String
  | .named name => "new(" ++ name ++ ")"
  | .pointer elem => "new(" ++ elem.text ++ ")"
  | .slice elem => "make(" ++ (GoType.slice elem).text ++ ", 0)"

/-- Statements with one more level of indentation; empty lines stay empty. -/
def indented (block : String) : String :=
  String.join ((Text.lines block.toList).map fun l =>
    if l.isEmpty then "\n" else "\t" ++ .ofList l ++ "\n")

/-- The batched form of a method. It makes room for the result and for an error, keeps the
statements around the call, and queues the call instead of making it. -/
def batchText (s : BulkSettings) (m : SyncMethod) : String :=
  let queue := "*" ++ m.receiverName ++ "." ++ s.queueField
  "func (" ++ m.receiverName ++ " *" ++ s.callerName m.receiverType ++ ") " ++ m.signature ++
    " (" ++ m.batchedType.text ++ ", *error) \x7b\n" ++
  "\tresult := " ++ allocation m.batchedType ++ "\n" ++
  "\terr := new(error)\n\n" ++
  indented m.before ++
  "\t" ++ queue ++ " = append(" ++ queue ++ ", " ++ s.descriptorFn ++
    "(result, " ++ m.callArgs ++ "))\n" ++
  indented m.after ++
  "\n\treturn result, err\n\x7d"

end RpcBindings.Go
