import RpcBindings.Text.Blank

/-!
Camel case.

Schema names are written with underscores or dashes between their words, Go names in camel case.
Only the letter after a separator changes, so a name that is in camel case already stays as it is.
-/

namespace RpcBindings.Casing

open Text

/-- The characters that separate the words of a schema name. -/
def isSeparator (c : Char) : Bool :=
  c == '_' || c == '-'

/-- Drops separators and raises the letter after each run of them. The flag says that a separator
has just been read. -/
def joinWords : Bool → List Char → List Char
  | _, [] => []
  | raised, c :: cs =>
    if isSeparator c then joinWords true cs
    else (if raised then c.toUpper else c) :: joinWords false cs

/-- Raises the first letter. -/
def raiseFirst : List Char → List Char
  | [] => []
  | c :: cs => c.toUpper :: cs

/-- `block_hash` becomes `blockHash`. -/
def lowerCamel (name : String) : String :=
  .ofList (joinWords false (trim name.toList))

/-- `status` becomes `Status`; letters outside ASCII stay as they are. -/
def capitalize (name : String) : String :=
  .ofList (raiseFirst name.toList)

/-- `block_hash` becomes `BlockHash`. -/
def upperCamel (name : String) : String :=
  capitalize (lowerCamel name)

theorem joinWords_nil (raised : Bool) : joinWords raised [] = [] := by
  cases raised <;> rfl

end RpcBindings.Casing
