import RpcBindings.Casing

/-!
Identifiers of Go: which texts are names, and which names Go reserves.
-/

namespace RpcBindings.Go

def isLetter (c : Char) : Bool :=
  c.isAlpha || c == '_'

def isLetterOrDigit (c : Char) : Bool :=
  c.isAlphanum || c == '_'

/-- An ASCII identifier. A reserved word is one too. -/
def isIdentifier (name : String) : Bool :=
  match name.toList with
  | [] => false
  | c :: cs => isLetter c && cs.all isLetterOrDigit

/-- The reserved words of Go. -/
def keywords : List String :=
  ["break", "case", "chan", "const", "continue", "default", "defer", "else", "fallthrough", "for",
    "func", "go", "goto", "if", "import", "interface", "map", "package", "range", "return",
    "select", "struct", "switch", "type", "var"]

/-- A parameter name in lower camel case; a reserved word gets an underscore at its end. -/
def paramName (source : String) : String :=
  let name := Casing.lowerCamel source
  if keywords.contains name then name ++ "_" else name

end RpcBindings.Go
