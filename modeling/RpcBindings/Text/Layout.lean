import RpcBindings.Text.Lines
import RpcBindings.Text.Offset

/-!
The layout of statement text: blank lines and indentation.

Text that was cut out of a function is laid out anew: no blank lines at its ends, at most one between
two others, no blanks at the ends of lines, and the indentation that all lines share taken away.
-/

namespace RpcBindings.Text

/-- Drops empty lines, except that one of several between two others stays. The flag says that an
empty line has just been dropped. -/
def squeeze : Bool → List (List Char) → List (List Char)
  | _, [] => []
  | gap, l :: ls =>
    if l.isEmpty then squeeze true ls
    else if gap then [] :: l :: squeeze false ls
    else l :: squeeze false ls

/-- Lines without empty ones at both ends, and with single ones elsewhere. -/
def paragraphs (ls : List (List Char)) : List (List Char) :=
  squeeze false (ls.dropWhile List.isEmpty)

/-- The indentation of a line in bytes. -/
def indentation (line : List Char) : Nat :=
  byteLength (line.takeWhile isBlank)

/-- The smallest indentation of a line that is not empty. -/
def commonIndentation (ls : List (List Char)) : Nat :=
  (((ls.filter (!·.isEmpty)).map indentation).min?).getD 0

/-- A line without a number of bytes at its start. An empty line has none to lose. -/
def dedentLine? (n : Nat) (line : List Char) : Option (List Char) :=
  if line.isEmpty then some [] else dropBytes? n line

/-- Lays text out anew. Indentation is counted in bytes, so lines may be indented by different
blanks; there is no result when the common indentation ends inside one of them. -/
def tidy? (cs : List Char) : Option (List Char) :=
  let ls := paragraphs ((lines cs).map trimEnd)
  (ls.mapM (dedentLine? (commonIndentation ls))).map joinLines

end RpcBindings.Text
