import RpcBindings.Text.Blank

/-!
Lines of a text and the comment lines among them.

A line ends at a line feed, which takes one carriage return directly before it along; text after
the last line feed is one more line unless it is empty.
-/

namespace RpcBindings.Text

/-- Drops one carriage return at the end of a line that is read last character first. -/
def endLine : List Char → List Char
  | '\r' :: run => run.reverse
  | run => run.reverse

/-- The lines of a text, with the line being read last character first. -/
def linesAux : List Char → List Char → List (List Char)
  | run, [] => if run.isEmpty then [] else [run.reverse]
  | run, c :: cs => if c = '\n' then endLine run :: linesAux [] cs else linesAux (c :: run) cs

def lines (cs : List Char) : List (List Char) :=
  linesAux [] cs

/-- Whether a line is a line comment once its indentation is gone. -/
def isComment (line : List Char) : Bool :=
  ['/', '/'].isPrefixOf line

/-- What stands before a line comment. -/
def beforeComment : List Char → List Char
  | [] => []
  | c :: cs => if isComment (c :: cs) then [] else c :: beforeComment cs

/-- The comment lines of a text, without indentation, in order. -/
def commentLines (cs : List Char) : List (List Char) :=
  ((lines cs).map trim).filter isComment

/-- Lines joined by line feeds, with none after the last. -/
def joinLines : List (List Char) → List Char
  | [] => []
  | [l] => l
  | l :: ls => l ++ '\n' :: joinLines ls

/-- Every line that `commentLines` keeps begins with two slashes. -/
theorem isComment_of_mem_commentLines {cs line : List Char} (h : line ∈ commentLines cs) :
    isComment line = true :=
  (List.mem_filter.1 h).2

end RpcBindings.Text
