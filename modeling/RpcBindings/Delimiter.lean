/-!
The three kinds of delimiters that nest in both source languages.
-/

namespace RpcBindings

inductive Delimiter where
  | paren
  | bracket
  | brace
  deriving DecidableEq, Repr

namespace Delimiter

def opener : Delimiter → Char
  | paren => '('
  | bracket => '['
  | brace => '{'

def closer : Delimiter → Char
  | paren => ')'
  | bracket => ']'
  | brace => '}'

/-- The delimiter that a byte opens. -/
def ofOpener? (b : UInt8) : Option Delimiter :=
  if b = '('.toUInt8 then some paren
  else if b = '['.toUInt8 then some bracket
  else if b = '{'.toUInt8 then some brace
  else none

/-- The delimiter that a byte closes. -/
def ofCloser? (b : UInt8) : Option Delimiter :=
  if b = ')'.toUInt8 then some paren
  else if b = ']'.toUInt8 then some bracket
  else if b = '}'.toUInt8 then some brace
  else none

end Delimiter

/-- Openers and closers tell the kinds apart. -/
theorem Delimiter.ofOpener?_opener (d : Delimiter) :
    Delimiter.ofOpener? d.opener.toUInt8 = some d := by
  cases d <;> rfl

theorem Delimiter.ofCloser?_closer (d : Delimiter) :
    Delimiter.ofCloser? d.closer.toUInt8 = some d := by
  cases d <;> rfl

end RpcBindings
