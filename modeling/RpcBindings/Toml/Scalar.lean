import RpcBindings.Text.Affix
import RpcBindings.Toml.Value

/-!
Values without quotes: truth values, numbers, dates and times.

Numbers keep no value, only their form is checked. What follows an underscore of a whole number is
free to be anything, so long as the characters next to underscores are digits of some base.
-/

namespace RpcBindings.Toml.Scalar

/-- The value of a hexadecimal digit. -/
def hexDigit? (c : Char) : Option Nat :=
  if c.isDigit then some (c.toNat - '0'.toNat)
  else if 'a' ≤ c && c ≤ 'f' then some (c.toNat - 'a'.toNat + 10)
  else if 'A' ≤ c && c ≤ 'F' then some (c.toNat - 'A'.toNat + 10)
  else none

def isHexDigit (c : Char) : Bool := (hexDigit? c).isSome

def dropSign : List Char → List Char
  | '+' :: cs => cs
  | '-' :: cs => cs
  | cs => cs

/-- Whether underscores stand between digits only: none comes first, last or next to another. The
first part may be one character of any kind, such as a sign. -/
def isSpaced (isDigit : Char → Bool) (cs : List Char) : Bool :=
  match Text.splitOn '_' cs with
  | [] => true
  | [_] => true
  | first :: rest =>
    (first :: rest).all (!·.isEmpty) && rest.all (fun p => p.head?.any isDigit) &&
      (first :: rest).dropLast.all fun p => p.length ≤ 1 || p.getLast?.any isDigit

/-- A zero that other digits follow. -/
def hasLeadingZero (cs : List Char) : Bool :=
  cs.head? == some '0' && cs.length != 1

/-- Digits of a base and underscores, after the base's mark. -/
def isRadixInteger (isDigit : Char → Bool) (cs : List Char) : Bool :=
  cs.all (fun c => isDigit c || c == '_') && isSpaced isHexDigit cs

/-! ## Floats -/

def isDigitOrBar (c : Char) : Bool := c.isDigit || c == '_'

/-- One or more digits with underscores among them: the digits, and what follows. -/
def digitRun? (cs : List Char) : Option (List Char × List Char) :=
  match (cs.takeWhile isDigitOrBar).filter (· != '_') with
  | [] => none
  | ds => some (ds, cs.dropWhile isDigitOrBar)

/-- What follows a point with its digits, if one comes next. -/
def afterFraction? : List Char → Option (List Char)
  | '.' :: cs => (digitRun? cs).map (·.2)
  | cs => some cs

def isExponentMark (c : Char) : Bool := c == 'e' || c == 'E'

/-- What follows an exponent, if one comes next. -/
def afterExponent? : List Char → Option (List Char)
  | c :: cs => if isExponentMark c then (digitRun? (dropSign cs)).map (·.2) else some (c :: cs)
  | [] => some []

/-- Whether a text without its sign has the parts of a float. -/
def isFloat (cs : List Char) : Bool :=
  match digitRun? cs with
  | none => false
  | some (whole, rest) =>
    !hasLeadingZero whole && (afterFraction? rest).bind afterExponent? == some []

/-! ## All values -/

/-- Words that are values. -/
def words : List String :=
  ["true", "false", "inf", "nan", "+inf", "-inf", "+nan", "-nan"]

/-- Whether a text with a decimal digit at its start, after any sign, is a number. -/
def isDecimal (cs : List Char) : Bool :=
  let number := dropSign cs
  match number.dropWhile Char.isDigit with
  | [] => !number.isEmpty && !hasLeadingZero number
  | c :: rest =>
    if (c :: rest).any fun d => d == '.' || isExponentMark d then
      isFloat number && isSpaced Char.isDigit cs
    else c == '_' && !hasLeadingZero number && isSpaced isHexDigit cs

/-- Whether a date or a time is meant, by what follows the first digits. -/
def isDated (cs : List Char) : Bool :=
  match (dropSign cs).dropWhile Char.isDigit with
  | c :: _ => c == '-' || c == ':'
  | [] => false

/-- Whether a text is a number. -/
def isNumber : List Char → Bool
  | '0' :: 'x' :: ds => isRadixInteger isHexDigit ds
  | '0' :: 'o' :: ds => isRadixInteger (fun c => '0' ≤ c && c ≤ '7') ds
  | '0' :: 'b' :: ds => isRadixInteger (fun c => c == '0' || c == '1') ds
  | cs => isDecimal cs

/-- The value that a text is. -/
def ofList? (cs : List Char) : Option Value :=
  if isDated cs then (DateTime.ofList? cs).map .dateTime
  else if words.contains (String.ofList cs) || isNumber cs then some .other
  else none

/-- Characters of values without quotes. -/
def isPlain (c : Char) : Bool :=
  !"=,[]{} \t#\r\n".toList.contains c

/-- A value without quotes, and what follows. One blank may stand between a date and a time. -/
def read? (cs : List Char) : Option (Value × List Char) :=
  let word := cs.takeWhile isPlain
  let rest := cs.dropWhile isPlain
  let dated : Option (Value × List Char) :=
    match rest with
    | ' ' :: more =>
      (DateTime.ofList? (word ++ ' ' :: more.takeWhile isPlain)).map fun d =>
        (.dateTime d, more.dropWhile isPlain)
    | _ => none
  dated <|> (ofList? word).map fun v => (v, rest)

end RpcBindings.Toml.Scalar
