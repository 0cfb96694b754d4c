import RpcBindings.Rust.Type

/-!
Parsers over token trees.

A parser takes the tokens that are left and gives a value and the tokens after it, or fails. Most
values are texts, which are joined by `cat`; they are the fragment as it is printed, which may differ
from how it was written. Tests look at the tokens and take none. The words of a list of tokens are
counted by `weight`, which bounds how deep a text can nest.

A group may be left before its end. The parser goes on after it, and the reading as a whole fails.
-/

namespace RpcBindings.Rust

/-- What a parser has before it. -/
structure Input where
  tokens : List Token
  /-- Whether a group has been left before its end. -/
  stray : Bool := false

/-- The tokens before the rest of an input. -/
def Input.taken (i after : Input) : List Token :=
  i.tokens.take (i.tokens.length - after.tokens.length)

abbrev Parser := StateT Input Option

/-! ## Tests -/

/-- What follows punctuation that is written without blanks. -/
def dropPunct? : List Char → List Token → Option (List Token)
  | [], ts => some ts
  | [c], .punct d _ :: ts => if c = d then some ts else none
  | c :: c' :: cs, .punct d joint :: ts =>
    if c = d && joint then dropPunct? (c' :: cs) ts else none
  | _, _ => none

/-- Whether some punctuation comes next. More punctuation may follow it. -/
def atPunct (s : String) (ts : List Token) : Bool :=
  (dropPunct? s.toList ts).isSome

def atWord (w : String) : List Token → Bool
  | .ident n :: _ => n == w
  | _ => false

/-- Whether one of some words comes next. -/
def atWords (ws : List String) (ts : List Token) : Bool :=
  ws.any fun w => atWord w ts

/-- Whether a name comes next, not a reserved word. -/
def atName : List Token → Bool
  | .ident n :: _ => isName n
  | _ => false

def atIdent : List Token → Bool
  | .ident _ :: _ => true
  | _ => false

def atLifetime : List Token → Bool
  | .lifetime _ :: _ => true
  | _ => false

def isNumber : LiteralKind → Bool
  | .int _ _ => true
  | .float => true
  | _ => false

/-- Whether a literal comes next: `true` and `false` are literals, and so is a negative number. -/
def atLiteral : List Token → Bool
  | .literal _ _ :: _ => true
  | .ident n :: _ => n == "true" || n == "false"
  | .punct '-' _ :: .literal kind _ :: _ => isNumber kind
  | _ => false

def atString : List Token → Bool
  | .literal (.str _) _ :: _ => true
  | _ => false

def atGroup (d : Delimiter) : List Token → Bool
  | .group e _ :: _ => d == e
  | _ => false

def atAnyGroup : List Token → Bool
  | .group _ _ :: _ => true
  | _ => false

def atParen : List Token → Bool := atGroup .paren

def atBrace : List Token → Bool := atGroup .brace

def atBracket : List Token → Bool := atGroup .bracket

def atEnd : List Token → Bool := List.isEmpty

/-- A test of the tokens after the next ones. -/
def skip (n : Nat) (test : List Token → Bool) (ts : List Token) : Bool :=
  test (ts.drop n)

/-- Whether one colon comes next, not two. -/
def atColon (ts : List Token) : Bool :=
  atPunct ":" ts && !atPunct "::" ts

/-- Whether one dot comes next, not two. -/
def atDot (ts : List Token) : Bool :=
  atPunct "." ts && !atPunct ".." ts

/-- Whether an exclamation mark comes next that is no part of an operator. -/
def atBang (ts : List Token) : Bool :=
  atPunct "!" ts && !atPunct "!=" ts

/-! ## Parsers -/

namespace Parser

variable {α : Type}

def fail : Parser α := fun _ => none

/-- The outcome of a test; takes no token. -/
def test (p : List Token → Bool) : Parser Bool := fun i => some (p i.tokens, i)

def require (p : List Token → Bool) : Parser Unit := fun i =>
  if p i.tokens then some ((), i) else none

/-- A parser that leaves no group. -/
def ofTokens (read : List Token → Option (α × List Token)) : Parser α := fun i =>
  (read i.tokens).map fun p => (p.1, ⟨p.2, i.stray⟩)

/-- The next token, whatever it is. -/
def anyToken : Parser Token :=
  ofTokens fun
    | [] => none
    | t :: ts => some (t, ts)

/-- Punctuation; gives its text. -/
def punct (s : String) : Parser String :=
  ofTokens fun ts => (dropPunct? s.toList ts).map fun rest => (s, rest)

def word (w : String) : Parser String :=
  ofTokens fun ts => if atWord w ts then some (w, ts.tail) else none

def name : Parser String :=
  ofTokens fun
    | .ident n :: ts => if isName n then some (n, ts) else none
    | _ => none

/-- A name or a reserved word. -/
def ident : Parser String :=
  ofTokens fun
    | .ident n :: ts => some (n, ts)
    | _ => none

/-- A lifetime with its quote. -/
def lifetime : Parser String :=
  ofTokens fun
    | .lifetime n :: ts => some ("'" ++ n, ts)
    | _ => none

/-- The value of a string literal. -/
def stringLiteral : Parser String :=
  ofTokens fun
    | .literal (.str v) _ :: ts => some (v, ts)
    | _ => none

/-- A literal: its kind and its text. -/
def literal : Parser (LiteralKind × String) :=
  ofTokens fun
    | .literal kind text :: ts => some ((kind, squeeze text), ts)
    | .ident n :: ts => if n == "true" || n == "false" then some ((.other, n), ts) else none
    | .punct '-' _ :: .literal kind text :: ts =>
      if isNumber kind then some ((.other, "-" ++ squeeze text), ts) else none
    | _ => none

/-- What a parser gives when a test passes, else a default. -/
def whenAt (p : List Token → Bool) (yes : Parser α) (no : α) : Parser α := fun i =>
  if p i.tokens then yes i else some (no, i)

/-- The text of what a parser takes when a test passes, else no text. -/
def optional (p : List Token → Bool) (yes : Parser String) : Parser String :=
  whenAt p yes ""

/-- Punctuation that may be missing; gives its text. -/
def optPunct (s : String) : Parser String := optional (atPunct s) (punct s)

def optWord (w : String) : Parser String := optional (atWord w) (word w)

def optLifetime : Parser String := optional atLifetime lifetime

/-- Parsers one after another, with their texts joined. -/
def cat : List (Parser String) → Parser String
  | [] => pure ""
  | p :: ps => do return (← p) ++ (← cat ps)

/-- The content of a group. -/
def group (d : Delimiter) (content : Parser α) : Parser α := fun i =>
  match i.tokens with
  | .group e inner :: ts =>
    if d = e then
      (content ⟨inner, i.stray⟩).map fun p => (p.1, ⟨ts, p.2.stray || !p.2.tokens.isEmpty⟩)
    else none
  | _ => none

/-- A text between delimiters. -/
def between (d : Delimiter) (text : String) : String :=
  d.opener.toString ++ text ++ d.closer.toString

/-- A group with its delimiters. -/
def enclosed (d : Delimiter) (content : Parser String) : Parser String :=
  between d <$> group d content

def parens : Parser String → Parser String := enclosed .paren

def brackets : Parser String → Parser String := enclosed .bracket

def braces : Parser String → Parser String := enclosed .brace

/-- Any group, unread; gives its delimiter and text. -/
def anyGroup : Parser (Delimiter × String) :=
  ofTokens fun
    | .group d inner :: ts => some ((d, (Token.group d inner).text), ts)
    | _ => none

/-- The text of all tokens that are left. -/
def rest : Parser String := ofTokens fun ts => some (tokensText ts, [])

/-- What a parser takes, as it is written. -/
def verbatim (p : Parser α) : Parser String := fun i =>
  (p i).map fun r => (tokensText (i.taken r.2), r.2)

/-- The text that a parser gives, or, when it gives none, what it takes as it is written. -/
def orVerbatim (p : Parser (Option String)) : Parser String := fun i =>
  (p i).map fun r => (r.1.getD (tokensText (i.taken r.2)), r.2)

/-- Goes on as the first parser if that succeeds, else as the second. -/
def orElse (p q : Parser α) : Parser α := fun i =>
  match p i with
  | some r => some r
  | none => q i

/-- A parser that takes at most as many steps as tokens are left, and one more. -/
def stepwise (p : Nat → Parser α) : Parser α := fun i =>
  p (i.tokens.length + 1) i

/-- Repeats a step until it gives nothing, at most `fuel` times. -/
def repeatFrom (step : Parser (Option α)) : Nat → Parser (List α)
  | 0 => fail
  | fuel + 1 => do
    match ← step with
    | none => return []
    | some a => return a :: (← repeatFrom step fuel)

/-- Repeats a step until it gives nothing. Every other step must take a token. -/
def repeatWhile (step : Parser (Option α)) : Parser (List α) :=
  stepwise (repeatFrom step)

/-- Repeats a parser as long as a test passes. -/
def many (p : List Token → Bool) (step : Parser α) : Parser (List α) :=
  repeatWhile (whenAt p (some <$> step) none)

/-- Repeats a parser as long as a test passes, with the texts joined. -/
def manyText (p : List Token → Bool) (step : Parser String) : Parser String := do
  return String.join (← many p step)

/-! ## Lists -/

/-- An element of a list, and whether the list ends with it. -/
abbrev Element (α : Type) := α × Bool

/-- The steps of `elements`. -/
def elementsFrom (stop : List Token → Bool) (sep : String) (elem : Bool → Parser (Element α)) :
    Nat → Bool → Parser (List (α × Bool))
  | 0, _ => fail
  | fuel + 1, first => do
    if ← test stop then return []
    let (a, isLast) ← elem first
    if isLast || (← test stop) then return [(a, false)]
    let _ ← punct sep
    return (a, true) :: (← elementsFrom stop sep elem fuel false)

/-- Elements, each ended by a separator, until a test passes; the last may go without. An element is
told whether it is the first and may end the list. Gives each element with whether a separator
follows it. -/
def elements (stop : List Token → Bool) (sep : String) (elem : Bool → Parser (Element α)) :
    Parser (List (α × Bool)) :=
  stepwise fun fuel => elementsFrom stop sep elem fuel true

/-- Elements, each ended by a separator, until a test passes; the last may go without. -/
def separated (stop : List Token → Bool) (sep : String) (elem : Parser α) :
    Parser (List (α × Bool)) :=
  elements stop sep fun _ => do return (← elem, false)

/-- The steps of `joined`. -/
def joinedFrom (stop : List Token → Bool) (sep : String) (elem : Parser α) :
    Nat → Parser (List (α × Bool))
  | 0 => fail
  | fuel + 1 => do
    if ← test stop then return []
    let a ← elem
    if ← test (atPunct sep) then
      let _ ← punct sep
      return (a, true) :: (← joinedFrom stop sep elem fuel)
    else return [(a, false)]

/-- Elements between separators: another element follows each separator unless `stop` passes. The
list ends where no separator stands. -/
def joined (stop : List Token → Bool) (sep : String) (elem : Parser α) :
    Parser (List (α × Bool)) :=
  stepwise (joinedFrom stop sep elem)

/-- The text of a list with its separators. -/
def listText (sep : String) : List (String × Bool) → String
  | [] => ""
  | (t, more) :: rest => t ++ (if more then sep else "") ++ listText sep rest

/-- The text of elements that end in separators. -/
def separatedText (stop : List Token → Bool) (sep : String) (elem : Parser String) :
    Parser String := do
  return listText sep (← separated stop sep elem)

/-- The text of elements between separators. -/
def joinedText (stop : List Token → Bool) (sep : String) (elem : Parser String) :
    Parser String := do
  return listText sep (← joined stop sep elem)

/-- The text of a group's elements, which end in commas. -/
def commaText (elem : Parser String) : Parser String :=
  separatedText atEnd "," elem

end Parser

mutual

/-- The number of tokens, those in groups included. -/
def Token.weight : Token → Nat
  | .group _ inner => 1 + weight inner
  | _ => 1

def weight : List Token → Nat
  | [] => 0
  | t :: ts => t.weight + weight ts

end

end RpcBindings.Rust
