import RpcBindings.Masked.Basic
import RpcBindings.Text.Offset

/-!
Masking byte by byte.

The loop goes over the bytes of a source and blanks ranges of a copy where they stand. At a byte it looks
at the bytes ahead, and at those behind it for the word that an `r` could end. Backslashes are passed with
the byte behind them, so the search for a closing quote may go on inside a character. What is left need not
be text, so it is decoded with replacement characters.
-/

namespace RpcBindings.Masked.Bytewise

/-! ## Literals -/

/-- How many bytes there are up to the quote that closes a literal, that one included; all when none
closes it. -/
def quotedLength (quote : UInt8) (escapes : Bool) : List UInt8 → Nat
  | [] => 0
  | b :: bs =>
    if escapes && b = '\\'.toUInt8 then
      match bs with
      | [] => 1
      | _ :: bs => 2 + quotedLength quote escapes bs
    else if b = quote then 1
    else 1 + quotedLength quote escapes bs

/-- The number of hashes when the bytes read as hashes and a double quote. -/
def rawHashes? : List UInt8 → Option Nat
  | [] => none
  | b :: bs =>
    if b = '"'.toUInt8 then some 0
    else if b = '#'.toUInt8 then (rawHashes? bs).map (· + 1)
    else none

/-- An `r` behind these bytes, the nearest one first, can open a raw string: no word reaches it but a
lone `b`. -/
def opensRaw : List UInt8 → Bool
  | [] => true
  | b :: bs => if b = 'b'.toUInt8 then breaksWord bs.head? else !isWordByte b

/-- How far ahead a raw string is closed by a quote and its hashes. -/
def rawClose? (hashes : Nat) : List UInt8 → Option Nat
  | [] => none
  | b :: bs =>
    if b = '"'.toUInt8 && (List.replicate hashes '#'.toUInt8).isPrefixOf bs then some 0
    else (rawClose? hashes bs).map (· + 1)

/-- The number of bytes of a character, by its first one. -/
def widthOf (first : UInt8) : Nat :=
  if first < 0x80 then 1 else if first < 0xE0 then 2 else if first < 0xF0 then 3 else 4

/-- How many bytes there are from behind a single quote up to the one that closes its literal, that one
included. Behind a backslash and one byte a character has to begin. -/
def characterLength? : List UInt8 → Option Nat
  | [] => none
  | b :: bs =>
    if b = '\\'.toUInt8 then
      match bs with
      | [] => none
      | _ :: bs =>
        if startsInside bs then none
        else (Text.findBytes? ['\''.toUInt8] bs).map (2 + · + 1)
    else if (b :: bs)[widthOf b]? = some '\''.toUInt8 then some (widthOf b + 1)
    else none

/-! ## The loop -/

/-- What the loop does at a byte: how many bytes it passes, and how many of them it leaves as they are
before those that it blanks. -/
structure Stride where
  lead : Nat
  blanked : Nat
  length : Nat

namespace Stride

/-- A byte that is left as it is. -/
def one : Stride := ⟨1, 0, 1⟩

/-- A comment, up to a line feed or to the end of the text. -/
def lineComment (bs : List UInt8) : Stride :=
  let n := (Text.findBytes? ['\n'.toUInt8] bs).getD bs.length
  ⟨0, n, n⟩

/-- A comment, up to the first place where it can be closed or to the end of the text. -/
def blockComment (bs : List UInt8) : Stride :=
  let n := ((Text.findBytes? ['*'.toUInt8, '/'.toUInt8] (bs.drop 2)).map (2 + · + 2)).getD bs.length
  ⟨0, n, n⟩

/-- A quoted literal of some bytes behind its first quote. The last of them is left even when no quote
closes the literal. -/
def quoted (n : Nat) : Stride := ⟨1, n - 1, 1 + n⟩

/-- A raw string with the bytes behind its opening quote. -/
def raw (hashes : Nat) (inside : List UInt8) : Stride :=
  match rawClose? hashes inside with
  | some n => ⟨1 + hashes + 1, n, 1 + hashes + 1 + n + 1 + hashes⟩
  | none => ⟨1 + hashes + 1, inside.length, 1 + hashes + 1 + inside.length⟩

end Stride

/-- What the loop does at a byte, when it knows the bytes behind, the nearest one first, and ahead. -/
def stride (lang : SourceLang) (behind : List UInt8) (b : UInt8) (ahead : List UInt8) : Stride :=
  if b = '/'.toUInt8 ∧ ahead.head? = some '/'.toUInt8 then .lineComment (b :: ahead)
  else if b = '/'.toUInt8 ∧ ahead.head? = some '*'.toUInt8 then .blockComment (b :: ahead)
  else if b = 'r'.toUInt8 ∧ lang = .rust then
    match if opensRaw behind then rawHashes? ahead else none with
    | some hashes => .raw hashes (ahead.drop (hashes + 1))
    | none => .one
  else if b = '"'.toUInt8 then .quoted (quotedLength '"'.toUInt8 true ahead)
  else if b = '`'.toUInt8 ∧ lang = .go then .quoted (quotedLength '`'.toUInt8 false ahead)
  else if b = '\''.toUInt8 then
    match characterLength? ahead with
    | some n => .quoted n
    | none => .one
  else .one

/-- A range of bytes blanked where they stand. -/
def blankRange (start n : Nat) (bs : List UInt8) : List UInt8 :=
  bs.take start ++ ((bs.drop start).take n).map Glyph.blankByte ++ bs.drop (start + n)

theorem Stride.lineComment_pos {b : UInt8} (h : b ≠ '\n'.toUInt8) (bs : List UInt8) :
    0 < (Stride.lineComment (b :: bs)).length := by
  have hfirst : ['\n'.toUInt8].isPrefixOf (b :: bs) = false := by
    rw [List.isPrefixOf_cons_cons, beq_eq_false_iff_ne.2 h.symm, Bool.false_and]
  unfold Stride.lineComment
  rw [Text.findBytes?, hfirst]
  cases Text.findBytes? ['\n'.toUInt8] bs with
  | none => exact Nat.succ_pos _
  | some n => exact Nat.succ_pos n

theorem Stride.blockComment_pos (b : UInt8) (bs : List UInt8) :
    0 < (Stride.blockComment (b :: bs)).length := by
  unfold Stride.blockComment
  cases Text.findBytes? ['*'.toUInt8, '/'.toUInt8] ((b :: bs).drop 2) with
  | none => exact Nat.succ_pos _
  | some n => exact Nat.succ_pos _

theorem Stride.raw_pos (hashes : Nat) (inside : List UInt8) :
    0 < (Stride.raw hashes inside).length := by
  unfold Stride.raw
  split <;> simp only <;> omega

/-- The loop goes on behind the byte at which it looks. -/
theorem stride_pos (lang : SourceLang) (behind : List UInt8) (b : UInt8) (ahead : List UInt8) :
    0 < (stride lang behind b ahead).length := by
  have hone : 0 < Stride.one.length := Nat.one_pos
  have hquoted (n : Nat) : 0 < (Stride.quoted n).length := Nat.add_pos_left Nat.one_pos n
  unfold stride
  split
  · rename_i h
    exact Stride.lineComment_pos (by rw [h.1]; decide) ahead
  · split
    · exact Stride.blockComment_pos b ahead
    · split
      · split
        · exact Stride.raw_pos _ _
        · exact hone
      · split
        · exact hquoted _
        · split
          · exact hquoted _
          · split
            · split
              · exact hquoted _
              · exact hone
            · exact hone

/-- The loop from an offset on, with the copy that is blanked. -/
def maskLoop (lang : SourceLang) (bytes : List UInt8) (i : Nat) (out : List UInt8) : List UInt8 :=
  match _h : bytes.drop i with
  | [] => out
  | b :: ahead =>
    let s := stride lang (bytes.take i).reverse b ahead
    maskLoop lang bytes (i + s.length) (blankRange (i + s.lead) s.blanked out)
termination_by bytes.length - i
decreasing_by
  have hpos := stride_pos lang (bytes.take i).reverse b ahead
  have hlen := congrArg List.length _h
  rw [List.length_drop, List.length_cons] at hlen
  omega

/-- The bytes of a source after the loop. -/
def maskBytes (lang : SourceLang) (bytes : List UInt8) : List UInt8 :=
  maskLoop lang bytes 0 bytes

/-! ## Decoding -/

/-- The number of bytes that a first byte announces; none when no character begins with it. -/
def announced (first : UInt8) : Nat :=
  if first < 0x80 then 1
  else if first < 0xC2 then 0
  else if first < 0xE0 then 2
  else if first < 0xF0 then 3
  else if first < 0xF5 then 4
  else 0

/-- A character can go on so behind its first byte. -/
def admitsSecond (first second : UInt8) : Bool :=
  if first = 0xE0 then 0xA0 ≤ second && second ≤ 0xBF
  else if first = 0xED then 0x80 ≤ second && second ≤ 0x9F
  else if first = 0xF0 then 0x90 ≤ second && second ≤ 0xBF
  else if first = 0xF4 then 0x80 ≤ second && second ≤ 0x8F
  else isContinuation second

/-- How many bytes are replaced together where no character is read: the longest beginning of one that
stands there. -/
def brokenLength : List UInt8 → Nat
  | first :: second :: bs =>
    if announced first < 3 || !admitsSecond first second then 1
    else if announced first = 4 && bs.head?.any isContinuation then 3
    else 2
  | _ => 1

theorem brokenLength_pos (bs : List UInt8) : 0 < brokenLength bs := by
  unfold brokenLength
  repeat' split
  all_goals decide

/-- Bytes read as text, with replacement characters where they are none. -/
def decodeLossy (bs : List UInt8) : List Char :=
  match bs with
  | [] => []
  | b :: bs =>
    match (b :: bs).toByteArray.utf8DecodeChar? 0 with
    | some c =>
      have := Char.utf8Size_pos c
      c :: decodeLossy ((b :: bs).drop c.utf8Size)
    | none =>
      have := brokenLength_pos (b :: bs)
      '\ufffd' :: decodeLossy ((b :: bs).drop (brokenLength (b :: bs)))
termination_by bs.length
decreasing_by
  all_goals
    rw [List.length_drop, List.length_cons]
    omega

end RpcBindings.Masked.Bytewise
