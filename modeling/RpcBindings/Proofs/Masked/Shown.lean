import RpcBindings.Proofs.Masked.Closed

/-!
What a masked copy never shows.

A slash that begins a comment is hidden, and a slash that is code is followed by what follows it in
the source. So no masked copy reads like the beginning of a comment (`mask_ne_append_opener`).
-/

namespace RpcBindings.Masked

/-- A glyph of a text is one step of its scan. -/
theorem exists_step_of_glyphsFrom_eq {mode : ScanMode} {t : List Char} {before after : List Glyph}
    {g : Glyph} (hgo : ofGo mode = true) (h : glyphsFrom .go mode t = before ++ g :: after) :
    ∃ mode' rest, ofGo mode' = true ∧ g.mark = (step .go mode' g.char rest).1 ∧
      after = glyphsFrom .go (step .go mode' g.char rest).2 rest := by
  induction t generalizing mode before with
  | nil => exact absurd h (by simp [glyphsFrom])
  | cons c cs ih =>
    rw [glyphsFrom] at h
    cases before with
    | nil =>
      obtain ⟨rfl, rfl⟩ := List.cons.inj h
      exact ⟨mode, cs, hgo, rfl, rfl⟩
    | cons g' before => exact ih (ofGo_step hgo c cs) (List.cons.inj h).2

theorem code_ne_nil (g : Glyph) : g.code ≠ [] := by
  have hsize : g.char.utf8Size ≠ 0 := Nat.ne_of_gt (Char.utf8Size_pos g.char)
  unfold Glyph.code
  cases g.mark with
  | shown => simp
  | hidden =>
    simp only [Glyph.blank]
    split <;> simp [hsize]
  | torn =>
    simp only [Glyph.remnant]
    split <;> simp

/-- Nothing is shown of a slash before what makes a comment of it. -/
theorem mark_step_slash {mode : ScanMode} (hgo : ofGo mode = true) {d : Char} (cs : List Char)
    (hd : d = '/' ∨ d = '*') : (step .go mode '/' (d :: cs)).1 = .hidden := by
  cases mode with
  | code w => rcases hd with rfl | rfl <;> rfl
  | quoted q escapes =>
    have hq : '/' ≠ q := by
      rintro rfl
      exact absurd hgo Bool.false_ne_true
    have hescape : (escapes && ('/' : Char) = '\\') = false := by cases escapes <;> rfl
    unfold step
    simp only [hescape, if_neg hq]
    rfl
  | rawOpen left hashes => exact absurd hgo Bool.false_ne_true
  | raw hashes => exact absurd hgo Bool.false_ne_true
  | rawClose left => exact absurd hgo Bool.false_ne_true
  | character ahead => cases ahead <;> rfl
  | _ => rfl

/-- No masked copy reads like the beginning of a comment. -/
theorem mask_ne_append_opener {t a b : List Char} {d : Char} (hd : d = '/' ∨ d = '*') :
    mask .go t ≠ a ++ '/' :: d :: b := by
  intro h
  have hnarrow : d.utf8Size = 1 := by rcases hd with rfl | rfl <;> rfl
  have hspace : d ≠ ' ' := by rcases hd with rfl | rfl <;> decide
  obtain ⟨before, g, after, hgs, rfl, hcode, hchar⟩ :=
    exists_glyph_of_showGlyphs_eq h (.inr (by decide)) (by decide)
  have hafter : showGlyphs after = [] ++ d :: b := by
    have hshow : showGlyphs before ++ (g.code ++ showGlyphs after) =
        showGlyphs before ++ '/' :: d :: b := by
      rw [← showGlyphs_cons, ← showGlyphs_append, ← hgs]
      exact h
    rw [hcode] at hshow
    exact (List.cons.inj (List.append_cancel_left hshow)).2
  obtain ⟨none, g', later, hlater, hnone, -, hchar'⟩ :=
    exists_glyph_of_showGlyphs_eq hafter (.inr hnarrow) hspace
  obtain rfl : none = [] := by
    cases none with
    | nil => rfl
    | cons g'' none =>
      rw [showGlyphs_cons, List.append_eq_nil_iff] at hnone
      exact absurd hnone.1 (code_ne_nil g'')
  obtain ⟨mode, rest, hgo, hmark, hrest⟩ := exists_step_of_glyphsFrom_eq rfl hgs
  -- what follows the slash in the source is what is shown behind it
  obtain ⟨cs, rfl⟩ : ∃ cs, rest = d :: cs := by
    rw [hlater, List.nil_append] at hrest
    cases rest with
    | nil => exact absurd hrest (by simp [glyphsFrom])
    | cons c cs =>
      rw [glyphsFrom] at hrest
      have hc := congrArg Glyph.char (List.cons.inj hrest).1
      exact ⟨cs, by rw [← hchar', hc]⟩
  rw [hchar, mark_step_slash hgo cs hd] at hmark
  unfold Glyph.code at hcode
  rw [hmark, hchar] at hcode
  exact absurd hcode (by decide)

end RpcBindings.Masked
