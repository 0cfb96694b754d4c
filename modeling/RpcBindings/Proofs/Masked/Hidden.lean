import RpcBindings.Proofs.Masked.Reading

/-!
Literals and comments in a masked text.

What stands between double quotes is hidden when it holds neither a quote nor a backslash
(`mask_quoted`), and a comment is hidden up to its line feed (`hidden_comment`).
-/

namespace RpcBindings.Masked

/-! ## What hidden characters show -/

theorem eq_of_mem_blank {c d : Char} (h : d ∈ Glyph.blank c) : d = ' ' ∨ d = '\n' := by
  unfold Glyph.blank at h
  split at h
  · exact .inr (List.mem_singleton.1 h)
  · exact .inl (List.eq_of_mem_replicate h)

theorem eq_of_mem_blanks {cs : List Char} {d : Char} (h : d ∈ cs.flatMap Glyph.blank) :
    d = ' ' ∨ d = '\n' := by
  obtain ⟨c, -, hd⟩ := List.mem_flatMap.1 h
  exact eq_of_mem_blank hd

theorem showGlyphs_map_hidden (cs : List Char) :
    showGlyphs (cs.map Glyph.hidden) = cs.flatMap Glyph.blank := by
  induction cs with
  | nil => rfl
  | cons c cs ih =>
    rw [List.map_cons, showGlyphs_cons, ih]
    rfl

/-- A line feed at the end of a text is seen in every mode. -/
theorem exists_mask_append_newline (mode : ScanMode) (a : List Char) :
    ∃ x, showGlyphs (glyphsFrom .go mode (a ++ ['\n'])) = x ++ ['\n'] := by
  induction a generalizing mode with
  | nil =>
    refine ⟨[], ?_⟩
    show (Glyph.mk '\n' (step .go mode '\n' []).1).code ++ [] = [] ++ ['\n']
    generalize (step .go mode '\n' []).1 = mark
    cases mark <;> rfl
  | cons c cs ih =>
    obtain ⟨x, hx⟩ := ih (step .go mode c (cs ++ ['\n'])).2
    refine ⟨(Glyph.mk c (step .go mode c (cs ++ ['\n'])).1).code ++ x, ?_⟩
    rw [List.cons_append, glyphsFrom, showGlyphs_cons, hx, List.append_assoc]

/-! ## String literals -/

/-- A text between double quotes. -/
def quoted (cs : List Char) : List Char :=
  '"' :: (cs ++ ['"'])

/-- A character that neither ends a string literal nor escapes the next one. -/
def isUnquoted (c : Char) : Bool :=
  c != '"' && c != '\\'

theorem glyphsFrom_quoted {cs : List Char} (h : cs.all isUnquoted = true) :
    glyphsFrom .go (.quoted '"' true) (cs ++ ['"']) =
        cs.map Glyph.hidden ++ [Glyph.shown '"'] ∧
      settlesFrom (.quoted '"' true) (cs ++ ['"']) = true := by
  induction cs with
  | nil => exact ⟨rfl, rfl⟩
  | cons c cs ih =>
    rw [List.all_cons, Bool.and_eq_true] at h
    obtain ⟨hglyphs, hsettles⟩ := ih h.2
    have hc := h.1
    unfold isUnquoted at hc
    rw [Bool.and_eq_true, bne_iff_ne, bne_iff_ne] at hc
    have hnonempty : (cs ++ ['"']).isEmpty = false := by cases cs <;> rfl
    have hstep : step .go (.quoted '"' true) c (cs ++ ['"']) = (.hidden, .quoted '"' true) := by
      unfold step literalStep
      simp [hc.1, hc.2]
    rw [List.cons_append, glyphsFrom, settlesFrom_cons, hstep]
    exact ⟨by rw [hglyphs]; rfl, hsettles⟩

theorem glyphs_quoted {cs : List Char} (h : cs.all isUnquoted = true) :
    glyphs .go (quoted cs) = Glyph.shown '"' :: (cs.map Glyph.hidden ++ [Glyph.shown '"']) := by
  show (⟨'"', .shown⟩ : Glyph) :: glyphsFrom .go (.quoted '"' true) (cs ++ ['"']) = _
  rw [(glyphsFrom_quoted h).1]
  rfl

theorem solid_quoted {cs : List Char} (h : cs.all isUnquoted = true) : Solid (quoted cs) := by
  refine ⟨closed_of_settles (glyphsFrom_quoted h).2, ?_⟩
  unfold quoted
  rw [← List.cons_append, List.getLast?_append_of_ne_nil _ (List.cons_ne_nil _ _)]
  decide

/-- A string literal shows its quotes only. -/
theorem mask_quoted {cs : List Char} (h : cs.all isUnquoted = true) :
    mask .go (quoted cs) = '"' :: (cs.flatMap Glyph.blank ++ ['"']) := by
  unfold mask
  rw [glyphs_quoted h, showGlyphs_cons, showGlyphs_append, showGlyphs_map_hidden]
  rfl

/-! ## Hidden texts -/

/-- A text that shows nothing. -/
structure Hidden (t : List Char) : Prop extends Solid t where
  blank : ∀ c ∈ mask .go t, c = ' ' ∨ c = '\n'

theorem Solid.append {a b : List Char} (ha : Solid a) (hb : Solid b) : Solid (a ++ b) := by
  refine ⟨ha.closed.append hb.closed fun hslash => absurd hslash ha.no_slash, ?_⟩
  cases b with
  | nil =>
    rw [List.append_nil]
    exact ha.no_slash
  | cons c b =>
    rw [List.getLast?_append_of_ne_nil _ (List.cons_ne_nil c b)]
    exact hb.no_slash

theorem Hidden.append {a b : List Char} (ha : Hidden a) (hb : Hidden b) : Hidden (a ++ b) := by
  refine ⟨ha.toSolid.append hb.toSolid, fun c hc => ?_⟩
  rw [ha.toSolid.mask_append, List.mem_append] at hc
  exact hc.elim (ha.blank c) (hb.blank c)

theorem hidden_nil : Hidden [] :=
  ⟨⟨closed_nil, by decide⟩, fun _ hc => absurd hc List.not_mem_nil⟩

theorem hidden_newline : Hidden ['\n'] := by
  have hplain : Plain ['\n'] := by unfold Plain; decide
  refine ⟨hplain.solid, fun c hc => ?_⟩
  rw [hplain.mask_eq] at hc
  exact .inr (List.mem_singleton.1 hc)

theorem glyphsFrom_lineComment {cs : List Char} (h : '\n' ∉ cs) :
    glyphsFrom .go .lineComment (cs ++ ['\n']) = cs.map Glyph.hidden ++ [Glyph.shown '\n'] ∧
      settlesFrom .lineComment (cs ++ ['\n']) = true := by
  induction cs with
  | nil => exact ⟨rfl, rfl⟩
  | cons c cs ih =>
    rw [List.mem_cons, not_or] at h
    obtain ⟨hglyphs, hsettles⟩ := ih h.2
    have hstep : step .go .lineComment c (cs ++ ['\n']) = (.hidden, .lineComment) := by
      show (if c = '\n' then _ else _) = _
      rw [if_neg (Ne.symm h.1)]
    rw [List.cons_append, glyphsFrom, settlesFrom_cons, hstep]
    exact ⟨by rw [hglyphs]; rfl, hsettles⟩

/-- A comment on a line is hidden. -/
theorem hidden_comment {cs : List Char} (hcomment : Text.isComment cs = true) (hline : '\n' ∉ cs) :
    Hidden (cs ++ ['\n']) := by
  obtain ⟨rest, rfl⟩ : ∃ rest, cs = '/' :: '/' :: rest := by
    obtain ⟨rest, hrest⟩ := List.isPrefixOf_iff_prefix.1 hcomment
    exact ⟨rest, hrest.symm⟩
  have hrest : '\n' ∉ '/' :: rest := fun hmem => hline (List.mem_cons_of_mem _ hmem)
  obtain ⟨hglyphs, hsettles⟩ := glyphsFrom_lineComment hrest
  refine ⟨⟨closed_of_settles hsettles, ?_⟩, fun c hc => ?_⟩
  · rw [List.getLast?_append_of_ne_nil _ (List.cons_ne_nil _ _)]
    decide
  · have hmask : mask .go ('/' :: '/' :: rest ++ ['\n']) =
        ' ' :: (('/' :: rest).flatMap Glyph.blank ++ ['\n']) := by
      show showGlyphs (⟨'/', .hidden⟩ :: glyphsFrom .go .lineComment ('/' :: rest ++ ['\n'])) = _
      rw [hglyphs, showGlyphs_cons, showGlyphs_append, showGlyphs_map_hidden]
      rfl
    rw [hmask] at hc
    rcases List.mem_cons.1 hc with rfl | hc
    · exact .inl rfl
    · rcases List.mem_append.1 hc with hc | hc
      · exact eq_of_mem_blanks hc
      · exact .inr (List.mem_singleton.1 hc)

end RpcBindings.Masked
