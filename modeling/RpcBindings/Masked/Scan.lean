import RpcBindings.Masked.Glyph

/-!
Masking: which characters of a source are code.

The scan reads one character at a time and knows in which mode it stands: in code, in a comment, or
in a literal. Comments are hidden whole, literals between their delimiters. Block comments do not
nest. `glyphs` is the whole scan; `endMode` says where a scan of a text ends.
-/

namespace RpcBindings

/-- The two languages that sources are written in. -/
inductive SourceLang where
  /-- `'a` may be a lifetime, and raw strings open with `r`. -/
  | rust
  /-- Raw strings stand between back quotes. -/
  | go
  deriving DecidableEq, Repr

/-- A character of an ASCII word. -/
def isWordChar (c : Char) : Bool :=
  c.isAlphanum || c == '_'

/-- What the code directly before a position means for an `r` there. -/
inductive WordState where
  /-- No word reaches the position. -/
  | fresh
  /-- The word before the position is a lone `b`. -/
  | afterB
  /-- Another word reaches the position. -/
  | inWord
  deriving DecidableEq, Repr

/-- The state after one more character of code. -/
def WordState.next (w : WordState) (c : Char) : WordState :=
  if !isWordChar c then .fresh
  else if c = 'b' && w = .fresh then .afterB
  else .inWord

/-- Where a scan stands. -/
inductive ScanMode where
  | code (word : WordState)
  | lineComment
  /-- The star that opens a block comment comes next. -/
  | blockOpen
  | blockComment
  /-- The slash that closes a block comment comes next. -/
  | blockClose
  | quoted (quote : Char) (escapes : Bool)
  /-- The character after a backslash comes next. -/
  | escaped (quote : Char)
  /-- Some of a raw string's opening hashes and its quote come next. -/
  | rawOpen (left hashes : Nat)
  | raw (hashes : Nat)
  /-- The rest of a raw string's closing hashes comes next. -/
  | rawClose (left : Nat)
  /-- In a character literal, with some characters ahead that do not close it. -/
  | character (ahead : Nat)
  deriving DecidableEq, Repr

namespace Masked

/-- The number of hashes when the text reads as hashes and a double quote. -/
def rawHashes? : List Char → Option Nat
  | '"' :: _ => some 0
  | '#' :: cs => (rawHashes? cs).map (· + 1)
  | _ => none

/-- How many characters after an opening single quote cannot close its literal, when there is a
literal at all: the two of an escape, else the one before a closing quote. -/
def characterBody? : List Char → Option Nat
  | '\\' :: c :: cs => if c.utf8Size = 1 && cs.contains '\'' then some 2 else none
  | '\\' :: [] => none
  | _ :: '\'' :: _ => some 1
  | _ => none

/-- How many hashes a text begins with, up to a bound. -/
def beginsWithHashes : Nat → List Char → Bool
  | 0, _ => true
  | n + 1, '#' :: cs => beginsWithHashes n cs
  | _ + 1, _ => false

/-- One character of code. -/
def codeStep (lang : SourceLang) (w : WordState) (c : Char) (rest : List Char) : Mark × ScanMode :=
  let plain : Mark × ScanMode := (.shown, .code (w.next c))
  match c with
  | '/' =>
    match rest with
    | '/' :: _ => (.hidden, .lineComment)
    | '*' :: _ => (.hidden, .blockOpen)
    | _ => plain
  | 'r' =>
    if lang = .rust && w != .inWord then
      match rawHashes? rest with
      | some n => (.shown, .rawOpen n n)
      | none => plain
    else plain
  | '"' => (.shown, .quoted '"' true)
  | '`' => if lang = .go then (.shown, .quoted '`' false) else plain
  | '\'' =>
    match characterBody? rest with
    | some n => (.shown, .character n)
    | none => plain
  | _ => plain

/-- One character of a literal that runs on: torn when the text ends with it. -/
def literalStep (rest : List Char) (next : ScanMode) : Mark × ScanMode :=
  (if rest.isEmpty then .torn else .hidden, next)

/-- How one character shows and where the scan stands after it. -/
def step (lang : SourceLang) (mode : ScanMode) (c : Char) (rest : List Char) : Mark × ScanMode :=
  match mode with
  | .code w => codeStep lang w c rest
  | .lineComment => if c = '\n' then (.shown, .code .fresh) else (.hidden, .lineComment)
  | .blockOpen => (.hidden, .blockComment)
  | .blockComment =>
    if c = '*' && rest.head? = some '/' then (.hidden, .blockClose) else (.hidden, .blockComment)
  | .blockClose => (.hidden, .code .fresh)
  | .quoted q escapes =>
    if escapes && c = '\\' then literalStep rest (.escaped q)
    else if c = q then (.shown, .code .fresh)
    else literalStep rest (.quoted q escapes)
  | .escaped q => literalStep rest (.quoted q true)
  | .rawOpen left hashes =>
    (.shown, match left with
      | 0 => .raw hashes
      | left + 1 => .rawOpen left hashes)
  | .raw hashes =>
    if c = '"' && beginsWithHashes hashes rest then
      (.shown, match hashes with
        | 0 => .code .fresh
        | left + 1 => .rawClose left)
    else (.hidden, .raw hashes)
  | .rawClose left =>
    (.shown, match left with
      | 0 => .code .fresh
      | left + 1 => .rawClose left)
  | .character ahead =>
    match ahead with
    | ahead + 1 => (.hidden, .character ahead)
    | 0 => if c = '\'' then (.shown, .code .fresh) else (.hidden, .character 0)

/-- The glyphs of a text that is read from a mode on. -/
def glyphsFrom (lang : SourceLang) : ScanMode → List Char → List Glyph
  | _, [] => []
  | mode, c :: rest =>
    let s := step lang mode c rest
    ⟨c, s.1⟩ :: glyphsFrom lang s.2 rest

/-- The glyphs of a whole source. -/
def glyphs (lang : SourceLang) (source : List Char) : List Glyph :=
  glyphsFrom lang (.code .fresh) source

/-- Where a scan that starts in a mode stands at the end of a text. -/
def endModeFrom (lang : SourceLang) : ScanMode → List Char → ScanMode
  | mode, [] => mode
  | mode, c :: rest => endModeFrom lang (step lang mode c rest).2 rest

def endMode (lang : SourceLang) (source : List Char) : ScanMode :=
  endModeFrom lang (.code .fresh) source

/-- Every character of the source has its glyph. -/
@[simp] theorem map_char_glyphsFrom (lang : SourceLang) (mode : ScanMode) (cs : List Char) :
    (glyphsFrom lang mode cs).map (·.char) = cs := by
  induction cs generalizing mode with
  | nil => rfl
  | cons c cs ih => simp [glyphsFrom, ih]

@[simp] theorem map_char_glyphs (lang : SourceLang) (source : List Char) :
    (glyphs lang source).map (·.char) = source :=
  map_char_glyphsFrom lang _ source

end Masked

end RpcBindings
