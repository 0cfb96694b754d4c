import RpcBindings.Toml.Scalar

/-!
Reading TOML.

A reader gets the text that is left and gives what it read and the text after it. A document is a
list of statements, headers and entries, and its value is made by carrying them out in order.
-/

namespace RpcBindings.Toml

/-- A step of a document. -/
inductive Statement where
  | header (path : List String)
  | arrayHeader (path : List String)
  | entry (path : List String) (value : Value)

namespace Reader

/-! ## Blanks and comments -/

def isSpace (c : Char) : Bool :=
  c == ' ' || c == '\t'

def dropSpaces (cs : List Char) : List Char :=
  cs.dropWhile isSpace

/-- Characters that may stand in comments and quoted text. -/
def isPrintable (c : Char) : Bool :=
  c == '\t' || (0x20 ≤ c.toNat && c.toNat != 0x7F)

/-- A line end and what follows. -/
def newline? : List Char → Option (List Char)
  | '\n' :: cs => some cs
  | '\r' :: '\n' :: cs => some cs
  | _ => none

/-- What follows a comment that may be missing. -/
def dropComment : List Char → List Char
  | '#' :: cs => cs.dropWhile isPrintable
  | cs => cs

/-- What follows blanks, comments and line ends, in at most `fuel` lines. -/
def dropLinesFrom : Nat → List Char → List Char
  | 0, cs => cs
  | fuel + 1, cs =>
    let after := dropComment (dropSpaces cs)
    match newline? after with
    | some rest => dropLinesFrom fuel rest
    | none => after

def dropLines (cs : List Char) : List Char :=
  dropLinesFrom (cs.length + 1) cs

/-- The end of a line that holds nothing more but a comment. -/
def lineEnd? (cs : List Char) : Option (List Char) :=
  match dropComment (dropSpaces cs) with
  | [] => some []
  | after => newline? after

/-! ## Quoted text -/

/-- A code point of a number of hexadecimal digits. -/
def codePoint? : Nat → Nat → List Char → Option (Char × List Char)
  | 0, value, cs => if Nat.isValidChar value then some (Char.ofNat value, cs) else none
  | _ + 1, _, [] => none
  | n + 1, value, c :: cs =>
    match Scalar.hexDigit? c with
    | some d => codePoint? n (16 * value + d) cs
    | none => none

/-- An escape after its backslash. -/
def escape? : List Char → Option (Char × List Char)
  | 'b' :: cs => some ('\x08', cs)
  | 't' :: cs => some ('\t', cs)
  | 'n' :: cs => some ('\n', cs)
  | 'f' :: cs => some ('\x0c', cs)
  | 'r' :: cs => some ('\r', cs)
  | 'e' :: cs => some ('\x1b', cs)
  | '"' :: cs => some ('"', cs)
  | '\\' :: cs => some ('\\', cs)
  | 'x' :: cs => codePoint? 2 0 cs
  | 'u' :: cs => codePoint? 4 0 cs
  | 'U' :: cs => codePoint? 8 0 cs
  | _ => none

/-- Text on one line up to its closing quote, in at most `fuel` steps. -/
def lineTextFrom (quote : Char) (escapes : Bool) : Nat → List Char →
    Option (List Char × List Char)
  | 0, _ => none
  | _ + 1, [] => none
  | fuel + 1, c :: cs =>
    if c = quote then some ([], cs)
    else if escapes && c = '\\' then
      match escape? cs with
      | none => none
      | some (d, rest) =>
        (lineTextFrom quote escapes fuel rest).map fun p => (d :: p.1, p.2)
    else if isPrintable c then
      (lineTextFrom quote escapes fuel cs).map fun p => (c :: p.1, p.2)
    else none

/-- How often a character stands at the start, up to a bound. -/
def countUpTo (bound : Nat) (q : Char) (cs : List Char) : Nat :=
  ((cs.take bound).takeWhile (· == q)).length

/-- What follows blanks and line ends. -/
def dropBlankLines : List Char → List Char
  | '\r' :: '\n' :: cs => dropBlankLines cs
  | c :: cs => if isSpace c || c == '\n' then dropBlankLines cs else c :: cs
  | [] => []

/-- What follows a backslash at a line's end: blanks and line ends go. -/
def continueLine? (cs : List Char) : Option (List Char) :=
  (newline? (dropSpaces cs)).map dropBlankLines

/-- Text over several lines up to its closing quotes. Up to two quotes before these belong to the
text. -/
def linesTextFrom (quote : Char) (escapes : Bool) : Nat → List Char →
    Option (List Char × List Char)
  | 0, _ => none
  | _ + 1, [] => none
  | fuel + 1, c :: cs =>
    let keep (text rest : List Char) :=
      (linesTextFrom quote escapes fuel rest).map fun p => (text ++ p.1, p.2)
    if c = quote then
      let n := countUpTo 5 quote (c :: cs)
      if n < 3 then keep [c] cs
      else some (List.replicate (n - 3) quote, (c :: cs).drop n)
    else if escapes && c = '\\' then
      match continueLine? cs with
      | some rest => keep [] rest
      | none =>
        match escape? cs with
        | some (d, rest) => keep [d] rest
        | none => none
    else match newline? (c :: cs) with
      | some rest => keep ((c :: cs).take (cs.length + 1 - rest.length)) rest
      | none => if isPrintable c then keep [c] cs else none

/-- A line end directly after opening quotes does not belong to the text. -/
def dropFirstNewline (cs : List Char) : List Char :=
  (newline? cs).getD cs

/-- Quoted text, with its opening quotes. -/
def text? (multiline : Bool) (cs : List Char) : Option (List Char × List Char) :=
  let lines (quote : Char) (escapes : Bool) (cs : List Char) :=
    linesTextFrom quote escapes (cs.length + 1) (dropFirstNewline cs)
  match multiline, cs with
  | true, '"' :: '"' :: '"' :: rest => lines '"' true rest
  | true, '\'' :: '\'' :: '\'' :: rest => lines '\'' false rest
  | _, '"' :: rest => lineTextFrom '"' true (rest.length + 1) rest
  | _, '\'' :: rest => lineTextFrom '\'' false (rest.length + 1) rest
  | _, _ => none

/-! ## Keys -/

def isBareKey (c : Char) : Bool :=
  c.isAlphanum || c == '_' || c == '-'

/-- One part of a key. -/
def keyPart? (cs : List Char) : Option (String × List Char) :=
  match text? false cs with
  | some (t, rest) => some (.ofList t, rest)
  | none =>
    match cs.takeWhile isBareKey with
    | [] => none
    | k => some (.ofList k, cs.dropWhile isBareKey)

/-- A key of one or more parts with points between them, in at most `fuel` parts. -/
def keyFrom : Nat → List Char → Option (List String × List Char)
  | 0, _ => none
  | fuel + 1, cs =>
    match keyPart? (dropSpaces cs) with
    | none => none
    | some (k, rest) =>
      match dropSpaces rest with
      | '.' :: more => (keyFrom fuel more).map fun p => (k :: p.1, p.2)
      | after => some ([k], after)

def key? (cs : List Char) : Option (List String × List Char) :=
  keyFrom (cs.length + 1) cs

/-! ## Values -/

mutual

/-- A value of at most `levels` nested levels, in at most `fuel` steps. -/
def valueFrom : Nat → Nat → List Char → Option (Value × List Char)
  | 0, _, _ => none
  | fuel + 1, levels, cs =>
    match text? true cs with
    | some (t, rest) => some (.string (.ofList t), rest)
    | none =>
      match levels, cs with
      | levels + 1, '[' :: rest => (elemsFrom fuel levels rest).map fun p => (.array p.1, p.2)
      | levels + 1, '{' :: rest =>
        (fieldsFrom fuel levels [] rest).map fun p => (.table (toValues p.1), p.2)
      | _, cs => Scalar.read? cs

/-- The elements of an array up to its end. -/
def elemsFrom : Nat → Nat → List Char → Option (List Value × List Char)
  | 0, _, _ => none
  | fuel + 1, levels, cs =>
    match dropLines cs with
    | ']' :: rest => some ([], rest)
    | cs =>
      match valueFrom fuel levels cs with
      | none => none
      | some (v, after) =>
        match dropLines after with
        | ',' :: rest => (elemsFrom fuel levels rest).map fun p => (v :: p.1, p.2)
        | ']' :: rest => some ([v], rest)
        | _ => none

/-- The entries of an inline table up to its end, after those read already. -/
def fieldsFrom : Nat → Nat → Entries → List Char → Option (Entries × List Char)
  | 0, _, _, _ => none
  | fuel + 1, levels, es, cs =>
    match dropLines cs with
    | '}' :: rest => some (es, rest)
    | cs =>
      match key? cs with
      | some (k, '=' :: after) =>
        match valueFrom fuel levels (dropSpaces after) with
        | none => none
        | some (v, after) =>
          match es.put? k v with
          | none => none
          | some es =>
            match dropLines after with
            | ',' :: rest => fieldsFrom fuel levels es rest
            | '}' :: rest => some (es, rest)
            | _ => none
      | _ => none

end

/-- How deep arrays and inline tables may nest. -/
def maxLevels : Nat := 80

/-- A value; each level and each element takes a character. -/
def value? (cs : List Char) : Option (Value × List Char) :=
  valueFrom (2 * cs.length + 2) maxLevels cs

/-! ## Documents -/

/-- A header after its opening brackets. -/
def header? (closing : List Char) (cs : List Char) : Option (List String × List Char) :=
  match key? cs with
  | none => none
  | some (k, after) => if closing.isPrefixOf after then some (k, after.drop closing.length) else none

/-- One statement, without the end of its line. -/
def statement? (cs : List Char) : Option (Statement × List Char) :=
  match cs with
  | '[' :: '[' :: rest => (header? [']', ']'] rest).map fun p => (.arrayHeader p.1, p.2)
  | '[' :: rest => (header? [']'] rest).map fun p => (.header p.1, p.2)
  | cs =>
    match key? cs with
    | some (k, '=' :: after) =>
      (value? (dropSpaces after)).map fun p => (.entry k p.1, p.2)
    | _ => none

/-- The statements of a document, in at most `fuel` lines. -/
def statementsFrom : Nat → List Char → Option (List Statement)
  | 0, _ => none
  | fuel + 1, cs =>
    match dropLines cs with
    | [] => some []
    | cs =>
      match statement? cs with
      | none => none
      | some (s, after) =>
        match lineEnd? after with
        | none => none
        | some rest => (statementsFrom fuel rest).map (s :: ·)

/-- Carries out statements: the entries so far, and the path of the table that is open. -/
def run? : Entries → List String → List Statement → Option Entries
  | es, _, [] => some es
  | es, _, .header path :: rest =>
    match path.getLast? with
    | none => none
    | some k =>
      match es.within? (Entries.openTable? k) path.dropLast with
      | none => none
      | some es => run? es path rest
  | es, _, .arrayHeader path :: rest =>
    match path.getLast? with
    | none => none
    | some k =>
      match es.within? (Entries.openElement? k) path.dropLast with
      | none => none
      | some es => run? es path rest
  | es, path, .entry k v :: rest =>
    match es.within? (Entries.put? k v) path with
    | none => none
    | some es => run? es path rest

end Reader

/-- The value of a document, a table. A byte order mark at its start does not count. -/
def parse? (text : String) : Option Value :=
  let cs := match text.toList with
    | '\ufeff' :: cs => cs
    | cs => cs
  match Reader.statementsFrom (cs.length + 1) cs with
  | none => none
  | some statements => (Reader.run? [] [] statements).map fun es => .table (toValues es)

end RpcBindings.Toml
