import RpcBindings.Masked.Scan
import RpcBindings.Text.Lines

/-!
Masked texts: a source beside its masked copy.

Searches look at the masked copy, so that they see code only; what they find is cut out of the
source. All positions are byte offsets, which mean the same in both.
-/

namespace RpcBindings

/-- A part of a text, by the byte offsets of its ends. -/
structure Span where
  start : Nat
  stop : Nat
  deriving DecidableEq, Repr

/-- A source and its masked copy, the copy also as bytes. -/
structure Masked where
  source : List Char
  code : List Char
  bytes : List UInt8
  bytes_eq : bytes = Text.bytes code

namespace Masked

/-- What a list of glyphs shows. -/
def showGlyphs (gs : List Glyph) : List Char :=
  gs.flatMap Glyph.code

/-- The masked copy of a source. -/
def mask (lang : SourceLang) (source : List Char) : List Char :=
  showGlyphs (glyphs lang source)

/-- A source with its masked copy. -/
def ofSource (lang : SourceLang) (source : List Char) : Masked :=
  let code := mask lang source
  ⟨source, code, Text.bytes code, rfl⟩

/-- The number of bytes of the masked copy. -/
def size (m : Masked) : Nat :=
  m.bytes.length

/-- The length of the source in bytes. -/
def sourceSize (m : Masked) : Nat :=
  Text.byteLength m.source

/-- The source between two offsets. -/
def slice (m : Masked) (start stop : Nat) : List Char :=
  Text.cut start stop m.source

/-- The masked copy between two offsets. -/
def codeSlice (m : Masked) (start stop : Nat) : List Char :=
  Text.cut start stop m.code

/-- The bytes of the masked copy between two offsets. -/
def byteSlice (m : Masked) (start stop : Nat) : List UInt8 :=
  (m.bytes.drop start).take (stop - start)

def spanText (m : Masked) (s : Span) : List Char :=
  m.slice s.start s.stop

/-- Whether there is no code between two offsets. -/
def isBlank (m : Masked) (start stop : Nat) : Bool :=
  Text.allBlank (m.codeSlice start stop)

/-! ## Words -/

/-- A byte of an ASCII word. -/
def isWordByte (b : UInt8) : Bool :=
  (0x30 ≤ b && b ≤ 0x39) || (0x41 ≤ b && b ≤ 0x5A) || (0x61 ≤ b && b ≤ 0x7A) || b == 0x5F

/-- A byte that can begin an identifier. -/
def isWordStart (b : UInt8) : Bool :=
  (0x41 ≤ b && b ≤ 0x5A) || (0x61 ≤ b && b ≤ 0x7A) || b == 0x5F

/-- A byte that continues a character of several bytes. -/
def isContinuation (b : UInt8) : Bool :=
  0x80 ≤ b && b ≤ 0xBF

/-- No word goes on across the position before `b?`. -/
def breaksWord (b? : Option UInt8) : Bool :=
  match b? with
  | none => true
  | some b => !isWordByte b

/-- Whether a word stands at the head of `bs`, whole, when `before` is the byte before it. -/
def wordHere (word : List UInt8) (before : Option UInt8) (bs : List UInt8) : Bool :=
  word.isPrefixOf bs && breaksWord before && breaksWord (bs.drop word.length).head?

/-- The bytes from a position inside a character on. -/
def startsInside : List UInt8 → Bool
  | [] => false
  | b :: _ => isContinuation b

/-- How far into `bs` the first whole occurrence of a word stands. After an occurrence that is part
of a longer word the search goes on at the next byte, if a character begins there. -/
def searchWord (word : List UInt8) : Option UInt8 → List UInt8 → Option Nat
  | before, [] => if wordHere word before [] then some 0 else none
  | before, b :: bs =>
    if word.isPrefixOf (b :: bs) then
      if wordHere word before (b :: bs) then some 0
      else if startsInside bs then none
      else (searchWord word (some b) bs).map (· + 1)
    else (searchWord word (some b) bs).map (· + 1)

/-- The byte before an offset. -/
def byteBefore (m : Masked) : Nat → Option UInt8
  | 0 => none
  | i + 1 => m.bytes[i]?

/-- The masked copy has a character boundary at the offset. -/
def isBoundary (m : Masked) (i : Nat) : Bool :=
  i ≤ m.size && !startsInside (m.bytes.drop i)

/-- The first place at or after an offset where a word stands whole. -/
def findWord (m : Masked) (word : List Char) (start : Nat) : Option Nat :=
  if m.isBoundary start then
    (searchWord (Text.bytes word) (m.byteBefore start) (m.bytes.drop start)).map (start + ·)
  else none

/-- Whether a word stands whole at an offset. -/
def wordAt (m : Masked) (word : List Char) (i : Nat) : Bool :=
  wordHere (Text.bytes word) (m.byteBefore i) (m.bytes.drop i)

/-- The places in `bs` where a word stands whole, when `bs` begins at offset `at`. -/
def wordStartsFrom (word : List UInt8) : Option UInt8 → Nat → List UInt8 → List Nat
  | _, _, [] => []
  | before, i, b :: bs =>
    let later := wordStartsFrom word (some b) (i + 1) bs
    if wordHere word before (b :: bs) then i :: later else later

/-- All places where a word stands whole, in order. -/
def wordStarts (m : Masked) (word : String) : List Nat :=
  wordStartsFrom (Text.bytes word.toList) none 0 m.bytes

/-- The identifier that begins at an offset. -/
def identAt? (m : Masked) (i : Nat) : Option Span :=
  match m.bytes.drop i with
  | [] => none
  | b :: bs =>
    if isWordStart b then some ⟨i, i + 1 + (bs.takeWhile isWordByte).length⟩ else none

/-! ## Single positions -/

def byteAt? (m : Masked) (i : Nat) : Option UInt8 :=
  m.bytes[i]?

/-- Whether an ASCII character stands at an offset. -/
def hasChar (m : Masked) (i : Nat) (c : Char) : Bool :=
  m.byteAt? i == some c.toUInt8

/-- The first place at or after an offset that is not blank. -/
def skipBlank? (m : Masked) (start : Nat) : Option Nat :=
  match Text.dropBytes? start m.code with
  | none => none
  | some cs =>
    if Text.allBlank cs then none
    else some (start + Text.byteLength (cs.takeWhile Text.isBlank))

/-- The identifier that follows an offset, across blanks. -/
def nameAfter? (m : Masked) (i : Nat) : Option Span :=
  (m.skipBlank? i).bind m.identAt?

/-- The start of the line that holds an offset, when its bytes up to the offset are `bs`, `i` is
where `bs` begins and `start` where the line that reaches `i` begins. -/
def lineStartFrom (start i : Nat) : List UInt8 → Nat
  | [] => start
  | b :: bs => lineStartFrom (if b = '\n'.toUInt8 then i + 1 else start) (i + 1) bs

/-- Where the line begins that holds an offset. -/
def lineStart (m : Masked) (i : Nat) : Nat :=
  lineStartFrom 0 0 (m.bytes.take i)

/-- Where the next line feed at or after an offset stands, or the end. -/
def lineStop (m : Masked) (i : Nat) : Nat :=
  i + ((m.bytes.drop i).takeWhile (· != '\n'.toUInt8)).length

/-- Nothing but blanks stands between the line's start and an offset. -/
def beginsLine (m : Masked) (i : Nat) : Bool :=
  m.isBlank (m.lineStart i) i

theorem lineStartFrom_le (start i : Nat) (bs : List UInt8) (h : start ≤ i) :
    lineStartFrom start i bs ≤ i + bs.length := by
  induction bs generalizing start i with
  | nil => simpa [lineStartFrom] using h
  | cons b bs ih =>
    rw [lineStartFrom, List.length_cons]
    have := ih (if b = '\n'.toUInt8 then i + 1 else start) (i + 1) (by split <;> omega)
    omega

/-- A line begins at or before any position in it. -/
theorem lineStart_le (m : Masked) (i : Nat) : m.lineStart i ≤ i := by
  have := lineStartFrom_le 0 0 (m.bytes.take i) (Nat.le_refl 0)
  have := List.length_take_le i m.bytes
  unfold lineStart
  omega

/-- A line of comment or attribute. -/
def isDecoration (line : List Char) : Bool :=
  Text.isComment line || ['#', '['].isPrefixOf line

/-- The start of the comment and attribute lines directly above a line that starts at `start`. -/
def decorationFrom (m : Masked) (start : Nat) : Nat :=
  if h : start = 0 then start
  else
    let above := m.lineStart (start - 1)
    if isDecoration (Text.trim (m.slice above start)) then
      have : above < start := by have := m.lineStart_le (start - 1); omega
      decorationFrom m above
    else start
termination_by start

/-- The start of the line that holds an offset, together with the comment and attribute lines
directly above it. -/
def decorationStart (m : Masked) (i : Nat) : Nat :=
  m.decorationFrom (m.lineStart i)

/-! ## Small facts -/

@[simp] theorem source_ofSource (lang : SourceLang) (source : List Char) :
    (ofSource lang source).source = source := rfl

@[simp] theorem code_ofSource (lang : SourceLang) (source : List Char) :
    (ofSource lang source).code = mask lang source := rfl

@[simp] theorem bytes_ofSource (lang : SourceLang) (source : List Char) :
    (ofSource lang source).bytes = Text.bytes (mask lang source) := rfl

end Masked

end RpcBindings
