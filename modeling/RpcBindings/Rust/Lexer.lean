import RpcBindings.Rust.Literal
import RpcBindings.Text.Lines

/-!
Reading Rust text into token trees.

Comments go, documentation comments become `doc` attributes. A first pass reads a flat list of
tokens and delimiters, a second one builds the trees. `tokens?` is both.
-/

namespace RpcBindings.Rust

open Text

/-- A token of the first pass. -/
inductive FlatToken where
  | leaf (token : Token)
  | opening (delimiter : Delimiter)
  | closing (delimiter : Delimiter)

namespace Lexer

/-- What separates tokens besides comments. -/
def isSpace (c : Char) : Bool :=
  isBlank c || c == '\u200e' || c == '\u200f'

/-- What follows a block comment that is open `depth` times; these comments nest. -/
def blockEnd? : Nat → List Char → Option (List Char)
  | depth, '/' :: '*' :: cs => blockEnd? (depth + 1) cs
  | depth, '*' :: '/' :: cs => if depth ≤ 1 then some cs else blockEnd? (depth - 1) cs
  | depth, _ :: cs => blockEnd? depth cs
  | _, [] => none

/-- What follows a comment that is left out, if the text begins with one. -/
def plainComment? (cs : List Char) : Option (List Char) :=
  match cs with
  | '/' :: '/' :: rest =>
    match rest with
    | '!' :: _ => none
    | '/' :: '/' :: _ => some (rest.dropWhile (· != '\n'))
    | '/' :: _ => none
    | _ => some (rest.dropWhile (· != '\n'))
  | '/' :: '*' :: rest =>
    match rest with
    | '!' :: _ => none
    | '*' :: '/' :: after => some after
    | '*' :: '*' :: _ => blockEnd? 1 rest
    | '*' :: _ => none
    | _ => blockEnd? 1 rest
  | _ => none

/-- A line up to its end, without a carriage return before the line feed. -/
def lineText (cs : List Char) : List Char × List Char :=
  let line := cs.takeWhile (· != '\n')
  let rest := cs.dropWhile (· != '\n')
  match rest with
  | [] => (line, rest)
  | _ => (endLine line.reverse, rest)

/-- A documentation comment: whether it documents what encloses it, its text, what follows. -/
def docComment? (cs : List Char) : Option (Bool × List Char × List Char) :=
  let block (inner : Bool) (body : List Char) : Option (Bool × List Char × List Char) :=
    (blockEnd? 1 body).map fun rest =>
      (inner, (body.take (body.length - rest.length - 2)).drop 1, rest)
  match cs with
  | '/' :: '/' :: '!' :: rest =>
    let l := lineText rest
    some (true, l.1, l.2)
  | '/' :: '*' :: '!' :: rest => block true ('!' :: rest)
  | '/' :: '/' :: '/' :: '/' :: _ => none
  | '/' :: '/' :: '/' :: rest =>
    let l := lineText rest
    some (false, l.1, l.2)
  | '/' :: '*' :: '*' :: '*' :: _ => none
  | '/' :: '*' :: '*' :: rest => block false ('*' :: rest)
  | _ => none

/-- A carriage return that no line feed follows. -/
def hasBareReturn : List Char → Bool
  | [] => false
  | '\r' :: '\n' :: cs => hasBareReturn cs
  | '\r' :: _ => true
  | _ :: cs => hasBareReturn cs

/-- The attribute that a documentation comment stands for. -/
def docTokens (inner : Bool) (text : List Char) : List FlatToken :=
  let bang : List FlatToken := if inner then [.leaf (.punct '!' false)] else []
  let value : Token := .literal (.str (.ofList text)) (.ofList (Quoted.literal text))
  .leaf (.punct '#' false) :: bang ++
    [.leaf (.group .bracket [.ident "doc", .punct '=' false, value])]

def isPunct (c : Char) : Bool :=
  "~!@#$%^&*-=+|;:,<.>/?'".toList.contains c

/-- Whether a text goes on with punctuation, a comment aside. -/
def punctNext : List Char → Bool
  | '/' :: '/' :: _ => false
  | '/' :: '*' :: _ => false
  | c :: _ => isPunct c
  | [] => false

/-- A name, raw or not, and what follows. -/
def name? (cs : List Char) : Option (List Char × List Char) :=
  match cs with
  | 'r' :: '#' :: rest =>
    match Literal.identifier? rest with
    | some (n, after) =>
      if ["_", "super", "self", "Self", "crate"].contains (String.ofList n) then none
      else some ('r' :: '#' :: n, after)
    | none => none
  | cs => Literal.identifier? cs

/-- Text that opens a literal, so that it is no name even when the literal cannot be read. -/
def opensLiteral (cs : List Char) : Bool :=
  ["r\"", "r#\"", "r##", "b\"", "b'", "br\"", "br#", "c\"", "cr\"", "cr#"].any
    fun p => p.toList.isPrefixOf cs

/-- A lifetime after its quote. -/
def lifetime? (cs : List Char) : Option (List Char × List Char) :=
  match name? cs with
  | none => none
  | some (n, after) =>
    match after with
    | '\'' :: _ => none
    | '#' :: _ => if ['r', '#'].isPrefixOf cs then some (n, after) else none
    | _ => some (n, after)

/-- A literal that stands for text that could not be read. -/
def unreadable : List Char := "(/*ERROR*/)".toList

/-- A token that is neither comment nor delimiter, and what follows. -/
def leaf? (cs : List Char) : Option (Token × List Char) :=
  match Literal.read? cs with
  | some (kind, rest) =>
    some (.literal kind (.ofList (cs.take (cs.length - rest.length))), rest)
  | none =>
    match cs with
    | [] => none
    | c :: rest =>
      if c = '\'' then
        (lifetime? rest).map fun p =>
          if opensLiteral rest then (.punct c true, rest) else (.lifetime (.ofList p.1), p.2)
      else if punctNext cs then some (.punct c (punctNext rest), rest)
      else if opensLiteral cs then none
      else (name? cs).map fun p => (.ident (.ofList p.1), p.2)

/-- The tokens of one step and the text after it. -/
def step? (c : Char) (rest : List Char) : Option (List FlatToken × List Char) :=
  let cs := c :: rest
  match plainComment? cs with
  | some after => some ([], after)
  | none =>
    if isSpace c then some ([], rest)
    else match docComment? cs with
      | some (inner, text, after) =>
        if hasBareReturn text then none else some (docTokens inner text, after)
      | none =>
        if unreadable.isPrefixOf cs then
          some ([.leaf (.literal .other (.ofList unreadable))], cs.drop unreadable.length)
        else match c with
        | '(' => some ([.opening .paren], rest)
        | '[' => some ([.opening .bracket], rest)
        | '{' => some ([.opening .brace], rest)
        | ')' => some ([.closing .paren], rest)
        | ']' => some ([.closing .bracket], rest)
        | '}' => some ([.closing .brace], rest)
        | _ => (leaf? cs).map fun p => ([.leaf p.1], p.2)

/-- The flat tokens of a text, in at most `fuel` steps. -/
def flatFrom : Nat → List Char → Option (List FlatToken)
  | _, [] => some []
  | 0, _ :: _ => none
  | fuel + 1, c :: rest =>
    match step? c rest with
    | none => none
    | some (ts, after) => (flatFrom fuel after).map (ts ++ ·)

/-- A frame of an open group: its delimiter and the tokens before it, last first. -/
abbrev Frame := Delimiter × List Token

/-- Builds the trees; `done` holds the tokens of the innermost open group, last first. -/
def build? : List Frame → List Token → List FlatToken → Option (List Token)
  | [], done, [] => some done.reverse
  | _ :: _, _, [] => none
  | frames, done, .leaf t :: ts => build? frames (t :: done) ts
  | frames, done, .opening d :: ts => build? ((d, done) :: frames) [] ts
  | [], _, .closing _ :: _ => none
  | (d, outer) :: frames, done, .closing e :: ts =>
    if d = e then build? frames (.group d done.reverse :: outer) ts else none

/-- A text without the byte order mark at its start. -/
def dropMark : List Char → List Char
  | '\ufeff' :: cs => cs
  | cs => cs

end Lexer

/-- The token trees of a text. Every step of the first pass reads a character, so its steps are
bounded by the length of the text. -/
def tokens? (text : List Char) : Option (List Token) :=
  let cs := Lexer.dropMark text
  (Lexer.flatFrom cs.length cs).bind (Lexer.build? [] [])

end RpcBindings.Rust
