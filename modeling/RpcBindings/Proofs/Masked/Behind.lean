import RpcBindings.Proofs.Masked.Boundary

/-!
A scan that has gone through the first part of a text.

What is shown of the first part depends on the rest as far as the scan looks ahead, so both are given
the rest: `modeBehind` is where the scan stands behind the first part, `shownBefore` is what it has
shown by then.
-/

namespace RpcBindings.Masked

variable {lang : SourceLang} {mode : ScanMode} {a rest : List Char}

/-- Where a scan of a text stands behind its first part. -/
def modeBehind (lang : SourceLang) : ScanMode → List Char → List Char → ScanMode
  | mode, [], _ => mode
  | mode, c :: cs, rest => modeBehind lang (step lang mode c (cs ++ rest)).2 cs rest

/-- The glyphs of the first part of a text. -/
def glyphsBefore (lang : SourceLang) : ScanMode → List Char → List Char → List Glyph
  | _, [], _ => []
  | mode, c :: cs, rest =>
    let s := step lang mode c (cs ++ rest)
    ⟨c, s.1⟩ :: glyphsBefore lang s.2 cs rest

/-- What is shown of the first part of a text. -/
def shownBefore (lang : SourceLang) (mode : ScanMode) (a rest : List Char) : List Char :=
  showGlyphs (glyphsBefore lang mode a rest)

theorem glyphsFrom_behind (lang : SourceLang) (mode : ScanMode) (a rest : List Char) :
    glyphsFrom lang mode (a ++ rest) =
      glyphsBefore lang mode a rest ++ glyphsFrom lang (modeBehind lang mode a rest) rest := by
  induction a generalizing mode with
  | nil => rfl
  | cons c a ih =>
    rw [List.cons_append, glyphsFrom, ih]
    rfl

theorem map_char_glyphsBefore (lang : SourceLang) (mode : ScanMode) (a rest : List Char) :
    (glyphsBefore lang mode a rest).map (·.char) = a := by
  induction a generalizing mode with
  | nil => rfl
  | cons c a ih => rw [glyphsBefore, List.map_cons, ih]

theorem modeBehind_append (lang : SourceLang) (mode : ScanMode) (a b rest : List Char) :
    modeBehind lang mode (a ++ b) rest =
      modeBehind lang (modeBehind lang mode a (b ++ rest)) b rest := by
  induction a generalizing mode with
  | nil => rfl
  | cons c a ih => rw [List.cons_append, modeBehind, modeBehind, ih, List.append_assoc]

theorem glyphsBefore_append (lang : SourceLang) (mode : ScanMode) (a b rest : List Char) :
    glyphsBefore lang mode (a ++ b) rest = glyphsBefore lang mode a (b ++ rest) ++
      glyphsBefore lang (modeBehind lang mode a (b ++ rest)) b rest := by
  induction a generalizing mode with
  | nil => rfl
  | cons c a ih =>
    rw [List.cons_append, glyphsBefore, glyphsBefore, modeBehind, ih, List.append_assoc]
    rfl

/-- Before more text no character is torn. -/
theorem whole_glyphsBefore (h : rest ≠ []) : Whole (glyphsBefore lang mode a rest) := by
  induction a generalizing mode with
  | nil => exact fun g hg => absurd hg List.not_mem_nil
  | cons c a ih =>
    intro g hg
    rcases List.mem_cons.1 hg with rfl | hg
    · exact mark_step_ne_torn lang mode c (List.append_ne_nil_of_right_ne_nil a h)
    · exact ih g hg

theorem byteLength_shownBefore (h : rest ≠ []) :
    Text.byteLength (shownBefore lang mode a rest) = Text.byteLength a := by
  unfold shownBefore
  rw [byteLength_showGlyphs (whole_glyphsBefore h), map_char_glyphsBefore]

end RpcBindings.Masked
