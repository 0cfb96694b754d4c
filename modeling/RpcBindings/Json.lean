/-!
JSON values and their text.

The text has one element a line and two more spaces of indentation for each level; an array or object
without elements stays on its line. Only quotes, backslashes and control characters are escaped.
-/

namespace RpcBindings

/-- A JSON value, as far as reports need it. -/
inductive JsonValue where
  | null
  | number (n : Nat)
  | string (text : String)
  | array (elems : List JsonValue)
  | object (fields : List (String × JsonValue))
  deriving Repr, Inhabited

namespace JsonValue

/-- A hexadecimal digit. -/
def hexDigit (n : Nat) : Char :=
  if n < 10 then .ofNat ('0'.toNat + n) else .ofNat ('a'.toNat + (n - 10))

/-- A character as it stands between quotes. -/
def escapeChar (c : Char) : List Char :=
  if c = '"' then ['\\', '"']
  else if c = '\\' then ['\\', '\\']
  else if c = '\x08' then ['\\', 'b']
  else if c = '\x0c' then ['\\', 'f']
  else if c = '\n' then ['\\', 'n']
  else if c = '\r' then ['\\', 'r']
  else if c = '\t' then ['\\', 't']
  else if c.toNat < 0x20 then
    ['\\', 'u', '0', '0', hexDigit (c.toNat / 16), hexDigit (c.toNat % 16)]
  else [c]

/-- A string between quotes. -/
def quoted (text : String) : String :=
  .ofList ('"' :: (text.toList.flatMap escapeChar ++ ['"']))

/-- The indentation of a level. -/
def indent (depth : Nat) : String :=
  .ofList (List.replicate (2 * depth) ' ')

/-- Elements between brackets, each on a line of its own. -/
def block (opening closing : String) (depth : Nat) (elems : List String) : String :=
  if elems.isEmpty then opening ++ closing
  else
    opening ++ "\n" ++ ",\n".intercalate (elems.map (indent (depth + 1) ++ ·)) ++ "\n" ++
      indent depth ++ closing

mutual

/-- The text of a value whose first line is indented already. -/
def textAt (depth : Nat) : JsonValue → String
  | null => "null"
  | number n => .ofList (Nat.toDigits 10 n)
  | string text => quoted text
  | array elems => block "[" "]" depth (elemTexts (depth + 1) elems)
  | object fields => block "\x7b" "\x7d" depth (fieldTexts (depth + 1) fields)

def elemTexts (depth : Nat) : List JsonValue → List String
  | [] => []
  | v :: rest => textAt depth v :: elemTexts depth rest

def fieldTexts (depth : Nat) : List (String × JsonValue) → List String
  | [] => []
  | (k, v) :: rest => (quoted k ++ ": " ++ textAt depth v) :: fieldTexts depth rest

end

/-- The text of a value. -/
def text (v : JsonValue) : String :=
  textAt 0 v

end JsonValue

end RpcBindings
