import RpcBindings.Text.Offset

/-!
Characters of a masked text.

Masking goes through a source once and says of each character how it shows. Shown characters stay,
hidden ones become as many spaces as they have bytes, so offsets into the masked text are offsets
into the source. Only the last character of a text that ends inside a literal can be torn: its last
byte alone stays, which reads as the replacement character when there was more than one.
-/

namespace RpcBindings

/-- How a character of the source shows in the masked text. -/
inductive Mark where
  | shown
  | hidden
  | torn
  deriving DecidableEq, Repr

/-- A character of the source and how it shows. -/
structure Glyph where
  char : Char
  mark : Mark
  deriving DecidableEq, Repr

namespace Glyph

/-- What stands in the masked text for a hidden character. A line feed stays, so lines stay. -/
def blank (c : Char) : List Char :=
  if c = '\n' then ['\n'] else List.replicate c.utf8Size ' '

/-- What stands in the masked text for a torn character. -/
def remnant (c : Char) : List Char :=
  if c.utf8Size = 1 then [c] else List.replicate (c.utf8Size - 1) ' ' ++ ['\ufffd']

/-- What a glyph shows. -/
def code (g : Glyph) : List Char :=
  match g.mark with
  | .shown => [g.char]
  | .hidden => blank g.char
  | .torn => remnant g.char

def shown (c : Char) : Glyph := ⟨c, .shown⟩

def hidden (c : Char) : Glyph := ⟨c, .hidden⟩

def torn (c : Char) : Glyph := ⟨c, .torn⟩

/-- A byte after it has been blanked where it stands. A line feed stays. -/
def blankByte (b : UInt8) : UInt8 :=
  if b = '\n'.toUInt8 then b else ' '.toUInt8

/-- A hidden character keeps its number of bytes. -/
theorem byteLength_blank (c : Char) : Text.byteLength (blank c) = c.utf8Size := by
  have space (n : Nat) : Text.byteLength (List.replicate n ' ') = n := by
    induction n with
    | zero => rfl
    | succ n ih => rw [List.replicate_succ, Text.byteLength_cons, ih]; exact Nat.add_comm 1 n
  unfold blank
  split
  · subst_vars; rfl
  · exact space _

end Glyph

end RpcBindings
