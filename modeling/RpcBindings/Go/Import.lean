import RpcBindings.Text.Affix
import RpcBindings.Text.Blank

/-!
Imports of a Go file.

An import is given by a spec, `path` or `alias path`, and stands in a file as a line in which the path
is quoted.
-/

namespace RpcBindings.Go

/-- An import. -/
structure Import where
  alias? : Option String
  path : String
  deriving DecidableEq, Repr

namespace Import

/-- Reads a spec. -/
def ofSpec (spec : String) : Import :=
  let cs := Text.trim spec.toList
  match Text.splitAtBlank? cs with
  | some (name, path) => ⟨some (.ofList name), .ofList (Text.trim path)⟩
  | none => ⟨none, .ofList cs⟩

/-- The spec of an import. -/
def spec (i : Import) : String :=
  match i.alias? with
  | some name => name ++ " " ++ i.path
  | none => i.path

/-- The import as a line of Go. -/
def line (i : Import) : String :=
  let quoted := "\"" ++ i.path ++ "\""
  match i.alias? with
  | some name => name ++ " " ++ quoted
  | none => quoted

/-- Reads a line of Go that has no blanks around it. Whatever stands before the last blank is the
alias. -/
def ofLine? (line : List Char) : Option Import :=
  match Text.splitAtLastBlank? line with
  | some (name, quoted) =>
    (Text.unquote? quoted).map fun path => ⟨some (.ofList (Text.trim name)), .ofList path⟩
  | none => (Text.unquote? line).map fun path => ⟨none, .ofList path⟩

/-- Whether a path element names a major version, as `v2` does. -/
def isVersion : List Char → Bool
  | 'v' :: digits => !digits.isEmpty && digits.all Char.isDigit
  | _ => false

/-- The package name of a path: its last element, or the one before when the last names a major
version. -/
def packageOf (path : String) : String :=
  match (Text.splitOn '/' path.toList).reverse with
  | last :: previous :: _ => .ofList (if isVersion last then previous else last)
  | _ => path

/-- The name that an import brings into a file. -/
def name (i : Import) : String :=
  i.alias?.getD (packageOf i.path)

/-- Whether an import counts as used whatever the file holds. -/
def isAlwaysUsed (i : Import) : Bool :=
  i.name == "_" || i.name == "."

end Import

end RpcBindings.Go
