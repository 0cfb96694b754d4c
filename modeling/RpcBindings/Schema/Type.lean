/-!
Types as a schema writes them, up to what the Go side needs to know of them.
-/

namespace RpcBindings

/-- A schema type: a name to look up, a value that may be missing, or a sequence. -/
inductive SchemaType where
  | scalar (name : String)
  | optional (elem : SchemaType)
  | sequence (elem : SchemaType)
  deriving DecidableEq, Repr, Inhabited

namespace SchemaType

/-- The type as Rust text. -/
def text : SchemaType → String
  | scalar name => name
  | optional elem => "Option<" ++ elem.text ++ ">"
  | sequence elem => "Vec<" ++ elem.text ++ ">"

end SchemaType

end RpcBindings
