/-!
Blank characters and the words between them.

A character is blank when it has the Unicode property `White_Space`. Texts are lists of
characters throughout the library, and everything here works on them.
-/

namespace RpcBindings.Text

/-- What holds of all members of a list is decided on the members, not on all characters or bytes. -/
instance (priority := high) decidableBAll {α : Type} {p : α → Prop} [DecidablePred p]
    (as : List α) : Decidable (∀ a ∈ as, p a) :=
  List.decidableBAll p as

/-- The characters with the Unicode property `White_Space`. -/
def isBlank (c : Char) : Bool :=
  let n := c.toNat
  (9 ≤ n && n ≤ 13) || n == 0x20 || n == 0x85 || n == 0xA0 || n == 0x1680 ||
    (0x2000 ≤ n && n ≤ 0x200A) || n == 0x2028 || n == 0x2029 || n == 0x202F || n == 0x205F ||
    n == 0x3000

/-- Only blanks, or nothing at all. -/
def allBlank (cs : List Char) : Bool :=
  cs.all isBlank

def trimStart (cs : List Char) : List Char :=
  cs.dropWhile isBlank

def trimEnd (cs : List Char) : List Char :=
  (cs.reverse.dropWhile isBlank).reverse

def trim (cs : List Char) : List Char :=
  trimEnd (trimStart cs)

/-- The maximal runs of characters that are not blank, with the run being read last first. -/
def wordsAux : List Char → List Char → List (List Char)
  | run, [] => if run.isEmpty then [] else [run.reverse]
  | run, c :: cs =>
    if isBlank c then
      if run.isEmpty then wordsAux [] cs else run.reverse :: wordsAux [] cs
    else wordsAux (c :: run) cs

/-- The words of a text: its maximal runs of characters that are not blank. -/
def words (cs : List Char) : List (List Char) :=
  wordsAux [] cs

/-- What stands before and after the first blank. -/
def splitAtBlank? (cs : List Char) : Option (List Char × List Char) :=
  match cs.dropWhile (fun c => !isBlank c) with
  | [] => none
  | _ :: after => some (cs.takeWhile (fun c => !isBlank c), after)

/-- What stands before and after the last blank. -/
def splitAtLastBlank? (cs : List Char) : Option (List Char × List Char) :=
  (splitAtBlank? cs.reverse).map fun p => (p.2.reverse, p.1.reverse)

/-! ## Small facts -/

theorem isBlank_space : isBlank ' ' = true := by decide

theorem isBlank_newline : isBlank '\n' = true := by decide

/-- Blanks of core's smaller class are blanks here. -/
theorem isBlank_of_isWhitespace {c : Char} (h : c.isWhitespace = true) : isBlank c = true := by
  simp only [Char.isWhitespace, Bool.or_eq_true, decide_eq_true_eq] at h
  rcases h with ((h | h) | h) | h <;> subst h <;> decide

end RpcBindings.Text
