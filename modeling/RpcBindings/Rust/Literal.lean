import RpcBindings.Rust.Token
import RpcBindings.Text.Identifier
import RpcBindings.Text.Visible

/-!
Literals of Rust: where one ends, the value of a string, and a text written as one.

Each reader gets the text after the literal's opening and returns what follows the literal. Reading
fails where the language allows no literal. In a text that is written as a literal the characters that
show stand for themselves, the others are written as escapes; a single quote needs none.
-/

namespace RpcBindings.Rust.Literal

open Text

def hexDigit? (c : Char) : Option Nat :=
  if c.isDigit then some (c.toNat - '0'.toNat)
  else if 'a' ≤ c && c ≤ 'f' then some (c.toNat - 'a'.toNat + 10)
  else if 'A' ≤ c && c ≤ 'F' then some (c.toNat - 'A'.toNat + 10)
  else none

/-- An identifier and what follows it. -/
def identifier? : List Char → Option (List Char × List Char)
  | [] => none
  | c :: cs =>
    if Identifier.isStart c then
      some (c :: cs.takeWhile Identifier.isContinue, cs.dropWhile Identifier.isContinue)
    else none

/-- What follows an optional suffix. -/
def dropSuffix (cs : List Char) : List Char :=
  match identifier? cs with
  | some (_, rest) => rest
  | none => cs

/-- The three alphabets that literals are written in. -/
inductive Alphabet where
  | unicode
  | ascii
  /-- Unicode without the character of code zero. -/
  | nonzero
  deriving DecidableEq, Repr

/-- Characters that may stand for themselves. -/
def Alphabet.admits (a : Alphabet) (c : Char) : Bool :=
  match a with
  | .unicode => true
  | .ascii => c.toNat < 0x80
  | .nonzero => c.toNat != 0

/-- The value of a two-digit escape. -/
def Alphabet.hexEscape? (a : Alphabet) (x y : Char) : Option Char :=
  match hexDigit? x, hexDigit? y with
  | some h, some l =>
    match a with
    | .unicode => if h < 8 then some (Char.ofNat (16 * h + l)) else none
    | .ascii => some (Char.ofNat (16 * h + l))
    | .nonzero => if 16 * h + l = 0 then none else some (Char.ofNat (16 * h + l))
  | _, _ => none

/-- The value of a one-letter escape. -/
def Alphabet.escape? (a : Alphabet) (c : Char) : Option Char :=
  match c with
  | 'n' => some '\n'
  | 'r' => some '\r'
  | 't' => some '\t'
  | '\\' => some '\\'
  | '\'' => some '\''
  | '"' => some '"'
  | '0' => if a = .nonzero then none else some '\x00'
  | _ => none

/-- Whether the alphabet has the escape that names a code point. -/
def Alphabet.hasUnicodeEscape (a : Alphabet) : Bool :=
  a != .ascii

/-- A code point of at most six digits, between braces. -/
def unicodeEscape? (a : Alphabet) (digits value : Nat) : List Char → Option (Char × List Char)
  | [] => none
  | c :: cs =>
    if c = '}' && 0 < digits then
      if Nat.isValidChar value && !(a = .nonzero && value = 0) then some (Char.ofNat value, cs)
      else none
    else if c = '_' && 0 < digits then unicodeEscape? a digits value cs
    else match hexDigit? c with
      | some d => if digits = 6 then none else unicodeEscape? a (digits + 1) (16 * value + d) cs
      | none => none

/-- What follows the blanks that a backslash at a line's end swallows. The flag says that a carriage
return has just been read, which a line feed must follow. -/
def continueLine? : Bool → List Char → Option (List Char)
  | _, [] => none
  | true, c :: cs => if c = '\n' then continueLine? false cs else none
  | false, c :: cs =>
    if c = ' ' || c = '\t' || c = '\n' then continueLine? false cs
    else if c = '\r' then continueLine? true cs
    else some (c :: cs)

/-- One character of a quoted literal, or nothing for a swallowed line end, and what follows. -/
def quotedChar? (a : Alphabet) : List Char → Option (Option Char × List Char)
  | [] => none
  | '\r' :: '\n' :: cs => some (some '\n', cs)
  | '\r' :: _ => none
  | '\\' :: 'x' :: x :: y :: cs => (a.hexEscape? x y).map fun c => (some c, cs)
  | '\\' :: 'u' :: '{' :: cs =>
    if a.hasUnicodeEscape then (unicodeEscape? a 0 0 cs).map fun p => (some p.1, p.2) else none
  | '\\' :: '\n' :: cs => (continueLine? false cs).map fun rest => (none, rest)
  | '\\' :: '\r' :: cs => (continueLine? true cs).map fun rest => (none, rest)
  | '\\' :: e :: cs => (a.escape? e).map fun c => (some c, cs)
  | '\\' :: [] => none
  | c :: cs => if a.admits c then some (some c, cs) else none

/-- The characters up to a double quote and what follows the quote, in at most `fuel` steps. -/
def quotedFrom (a : Alphabet) : Nat → List Char → Option (List Char × List Char)
  | 0, _ => none
  | fuel + 1, cs =>
    match cs with
    | '"' :: rest => some ([], rest)
    | cs =>
      match quotedChar? a cs with
      | none => none
      | some (c?, rest) => (quotedFrom a fuel rest).map fun p => (c?.toList ++ p.1, p.2)

/-- The value of a quoted string after its opening quote. -/
def quoted? (a : Alphabet) (cs : List Char) : Option (List Char × List Char) :=
  quotedFrom a (cs.length + 1) cs

/-- Opening hashes and the quote after them: how many, and what follows. -/
def rawOpening? : List Char → Option (Nat × List Char)
  | '"' :: cs => some (0, cs)
  | '#' :: cs => (rawOpening? cs).map fun p => (p.1 + 1, p.2)
  | _ => none

/-- What follows `n` hashes. -/
def dropHashes? : Nat → List Char → Option (List Char)
  | 0, cs => some cs
  | n + 1, '#' :: cs => dropHashes? n cs
  | _ + 1, _ => none

/-- The characters of a raw string up to its closing quote and hashes. -/
def rawFrom (a : Alphabet) (hashes : Nat) : List Char → Option (List Char × List Char)
  | [] => none
  | c :: cs =>
    let go := (rawFrom a hashes cs).map fun p => (c :: p.1, p.2)
    if c = '"' then
      match dropHashes? hashes cs with
      | some rest => some ([], rest)
      | none => go
    else if c = '\r' && cs.head? != some '\n' then none
    else if a.admits c then go
    else none

/-- The value of a raw string after the letter that opens it. -/
def raw? (a : Alphabet) (cs : List Char) : Option (List Char × List Char) :=
  match rawOpening? cs with
  | some (hashes, rest) => if hashes ≤ 255 then rawFrom a hashes rest else none
  | none => none

/-- One character or escape, and what follows. Unlike in strings, any character stands for
itself. -/
def oneChar? (a : Alphabet) : List Char → Option (List Char)
  | '\\' :: 'x' :: x :: y :: cs => (a.hexEscape? x y).map fun _ => cs
  | '\\' :: 'u' :: '{' :: cs =>
    if a.hasUnicodeEscape then (unicodeEscape? a 0 0 cs).map (·.2) else none
  | '\\' :: e :: cs => (a.escape? e).map fun _ => cs
  | '\\' :: [] => none
  | c :: cs => if a.admits c then some cs else none
  | [] => none

/-- What follows a character literal after its opening quote. -/
def character? (a : Alphabet) (cs : List Char) : Option (List Char) :=
  match oneChar? a cs with
  | some ('\'' :: rest) => some rest
  | _ => none

/-! ## Numbers -/

/-- The rest after a number must not go on with a word. -/
def numberEnd? (cs : List Char) : Option (List Char) :=
  let rest := dropSuffix cs
  match rest with
  | c :: _ => if Identifier.isContinue c then none else some rest
  | [] => some rest

/-- The value of an integer's digits in a base, and what follows them; `value?` is the value of the
digits read already, if any. -/
def digitsFrom (base : Nat) : Option Nat → List Char → Option (Nat × List Char)
  | value?, [] => value?.map fun v => (v, [])
  | value?, c :: cs =>
    let done := value?.map fun v => (v, c :: cs)
    if c = '_' then
      if value?.isNone && base = 10 then none else digitsFrom base value? cs
    else match hexDigit? c with
      | none => done
      | some d =>
        if d < base then digitsFrom base (some (base * value?.getD 0 + d)) cs
        else if c.isDigit then none
        else done

/-- The value of an integer without its suffix, and what follows. -/
def digits? (cs : List Char) : Option (Nat × List Char) :=
  match cs with
  | '0' :: 'x' :: rest => digitsFrom 16 none rest
  | '0' :: 'o' :: rest => digitsFrom 8 none rest
  | '0' :: 'b' :: rest => digitsFrom 2 none rest
  | cs => digitsFrom 10 none cs

/-- An integer: its value, whether it has a suffix, and what follows. -/
def int? (cs : List Char) : Option (Nat × Bool × List Char) :=
  match digits? cs with
  | none => none
  | some (value, rest) =>
    (numberEnd? rest).map fun after => (value, after.length != rest.length, after)

/-- What follows the exponent's sign and digits, when it has digits. -/
def exponentFrom (signed valued : Bool) : List Char → Option (List Char)
  | [] => if valued then some [] else none
  | c :: cs =>
    if c = '+' || c = '-' then
      if valued then some (c :: cs) else if signed then none else exponentFrom true valued cs
    else if c.isDigit then exponentFrom signed true cs
    else if c = '_' then exponentFrom signed valued cs
    else if valued then some (c :: cs) else none

/-- What follows the digits of a float; `dotted` says that its point has been read. Without digits
in the exponent a float that has a point ends before the exponent's letter. -/
def floatFrom (dotted : Bool) : List Char → Option (List Char)
  | [] => if dotted then some [] else none
  | c :: cs =>
    if c.isDigit || c = '_' then floatFrom dotted cs
    else if c = '.' then
      if dotted then some (c :: cs)
      else match cs with
        | d :: _ => if d = '.' || Identifier.isStart d then none else floatFrom true cs
        | [] => floatFrom true cs
    else if c = 'e' || c = 'E' then
      match exponentFrom false false cs with
      | some rest => some rest
      | none => if dotted then some (c :: cs) else none
    else if dotted then some (c :: cs) else none

/-- What follows a float. -/
def float? (cs : List Char) : Option (List Char) :=
  match cs with
  | c :: rest =>
    if c.isDigit then
      match floatFrom false rest with
      | some after => numberEnd? after
      | none => none
    else none
  | [] => none

/-- A string literal's kind and what follows its suffix. -/
def ofString (p : List Char × List Char) : LiteralKind × List Char :=
  (.str (.ofList p.1), dropSuffix p.2)

/-- A literal whose value does not matter. -/
def ofOther (rest : List Char) : LiteralKind × List Char :=
  (.other, dropSuffix rest)

/-- The literal that a text begins with, if any: its kind and what follows. -/
def read? (cs : List Char) : Option (LiteralKind × List Char) :=
  let string : Option (LiteralKind × List Char) :=
    match cs with
    | '"' :: rest => (quoted? .unicode rest).map ofString
    | 'r' :: rest => (raw? .unicode rest).map ofString
    | 'b' :: '"' :: rest => (quoted? .ascii rest).map fun p => ofOther p.2
    | 'b' :: 'r' :: rest => (raw? .ascii rest).map fun p => ofOther p.2
    | 'c' :: '"' :: rest => (quoted? .nonzero rest).map fun p => ofOther p.2
    | 'c' :: 'r' :: rest => (raw? .nonzero rest).map fun p => ofOther p.2
    | 'b' :: '\'' :: rest => (character? .ascii rest).map ofOther
    | '\'' :: rest => (character? .unicode rest).map ofOther
    | _ => none
  string <|>
    (float? cs).map (fun rest => (.float, rest)) <|>
    (int? cs).map (fun p => (.int p.1 p.2.1, p.2.2))

end RpcBindings.Rust.Literal

namespace RpcBindings.Rust.Quoted

open Text

/-- Whether a character goes on with an octal escape that the null character would begin. -/
def isOctalDigit (c : Char) : Bool :=
  '0' ≤ c && c ≤ '7'

/-- The escape that names a code point. -/
def codePoint (c : Char) : List Char :=
  '\\' :: 'u' :: '{' :: Nat.toDigits 16 c.toNat ++ ['}']

/-- A character as a part of a literal, told the one that follows. -/
def charText (c : Char) (next? : Option Char) : List Char :=
  match c with
  | '\x00' => if next?.any isOctalDigit then ['\\', 'x', '0', '0'] else ['\\', '0']
  | '\t' => ['\\', 't']
  | '\r' => ['\\', 'r']
  | '\n' => ['\\', 'n']
  | '\\' => ['\\', '\\']
  | '"' => ['\\', '"']
  | c => if Visible.isVisible c then [c] else codePoint c

/-- A text between the quotes of a literal. -/
def body : List Char → List Char
  | [] => []
  | c :: cs => charText c cs.head? ++ body cs

/-- The literal whose value is a text. -/
def literal (cs : List Char) : List Char :=
  '"' :: body cs ++ ['"']

end RpcBindings.Rust.Quoted
