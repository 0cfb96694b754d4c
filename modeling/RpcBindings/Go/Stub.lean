import RpcBindings.Go.Identifier
import RpcBindings.Schema.Interface
import RpcBindings.Settings.Basic

/-!
Client stubs: the type that serves a namespace, and one method for every RPC method, which makes a
single synchronous call.
-/

namespace RpcBindings.Go

/-- The client type of a namespace with its constructor. -/
def clientTypeText (s : ClientSettings) (nspace : String) : String :=
  let name := s.typeName nspace
  "type " ++ name ++ " struct \x7b\n" ++
  "\t" ++ s.coreField ++ " *" ++ s.coreType ++ "\n" ++
  "\x7d\n" ++
  "\n" ++
  "func New" ++ name ++ "(" ++ s.coreField ++ " *" ++ s.coreType ++ ") " ++ name ++ " \x7b\n" ++
  "\treturn " ++ name ++ "\x7b" ++ s.coreField ++ "\x7d\n" ++
  "\x7d"

/-- A parameter of a stub. -/
structure StubParam where
  name : String
  type : GoType
  deriving DecidableEq, Repr

/-- A parameter name that hides neither the receiver nor the error. -/
def stubParamName (receiver source : String) : String :=
  let name := paramName source
  if name = "err" || name = receiver then name ++ "_" else name

/-- The parameters of the stub for a method. -/
def stubParams (s : ClientSettings) (table : TypeTable) (m : RpcMethod) : List StubParam :=
  m.params.map fun p => ⟨stubParamName s.receiver p.name, table.resolve p.type⟩

/-- The name of a stub's result, which no parameter should have. -/
def stubResult (params : List StubParam) : String :=
  if params.any fun p => p.name = "val" then "result" else "val"

/-- The stub for a method of a namespace. -/
def stubText (s : ClientSettings) (table : TypeTable) (nspace : String) (m : RpcMethod) : String :=
  let params := stubParams s table m
  let result := stubResult params
  let declared := ", ".intercalate (params.map fun p => p.name ++ " " ++ p.type.text)
  let passed := String.join (params.map fun p => ", " ++ p.name)
  let doc := match m.docComment? with
    | none => ""
    | some comment => comment ++ "\n"
  doc ++
  "func (" ++ s.receiver ++ " *" ++ s.typeName nspace ++ ") " ++ m.functionName ++
    "(" ++ declared ++ ") (" ++ result ++ " " ++ (table.resolve m.returnType).text ++
    ", err error) \x7b\n" ++
  "\terr = " ++ s.receiver ++ "." ++ s.coreField ++ "." ++ s.invoke ++
    "(&" ++ result ++ ", \"" ++ m.wireName ++ "\"" ++ passed ++ ")\n" ++
  "\treturn\n\x7d"

end RpcBindings.Go
