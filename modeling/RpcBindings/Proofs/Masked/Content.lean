import RpcBindings.Proofs.Masked.Hidden
import RpcBindings.Proofs.Masked.Token
import RpcBindings.Proofs.Text.Content

/-!
What the lines of a masked text hold.

Blanks around a line do not matter for how it is masked when its scan is in code again at the end of
the line (`content_mask_blanks`). Main statement: when all lines of a text are such lines, the masked
text holds what its lines hold when each is masked on its own (`content_mask`).
-/

namespace RpcBindings.Masked

/-! ## Blanks at the end of a line -/

/-- What opens a character literal closes it further on. -/
theorem quote_mem_of_characterBody? {c : Char} {cs : List Char} {n : Nat}
    (h : characterBody? (c :: cs) = some n) : '\'' ∈ cs := by
  unfold characterBody? at h
  split at h
  · rename_i d rest heq
    obtain ⟨-, rfl⟩ := List.cons.inj heq
    obtain ⟨hif, -⟩ := Option.ite_none_right_eq_some.1 h
    rw [Bool.and_eq_true, List.contains_iff_mem] at hif
    exact List.mem_cons_of_mem d hif.2
  · exact absurd h nofun
  · rename_i heq
    obtain ⟨-, rfl⟩ := List.cons.inj heq
    exact List.mem_cons_self
  · exact absurd h nofun

theorem characterBody?_of_append {t b : List Char} {n : Nat} (hb : '\'' ∉ b)
    (h : characterBody? (t ++ b) = some n) : characterBody? t = some n := by
  match t with
  | [] =>
    cases b with
    | nil => exact h
    | cons d b =>
      exact absurd (List.mem_cons_of_mem d (quote_mem_of_characterBody? h)) hb
  | [c] => exact absurd (quote_mem_of_characterBody? h) hb
  | c :: d :: cs =>
    by_cases hslash : c = '\\'
    · subst hslash
      rw [List.cons_append, List.cons_append] at h
      obtain ⟨hif, hn⟩ := Option.ite_none_right_eq_some.1 h
      rw [Bool.and_eq_true, List.contains_iff_mem, List.mem_append] at hif
      rw [characterBody?, hif.1, List.contains_iff_mem.2 (hif.2.resolve_right hb)]
      exact hn
    · by_cases hquote : d = '\''
      · subst hquote
        simpa [characterBody?] using h
      · simp [characterBody?, hslash, hquote] at h

/-- A literal is read as one whatever blanks stand behind the text. -/
theorem bodyOnLine?_of_append_blank {t b : List Char} {n : Nat} (hb : Text.allBlank b = true)
    (h : bodyOnLine? (t ++ b) = some n) : bodyOnLine? t = some n := by
  have hquote : '\'' ∉ b.takeWhile (· != '\n') := fun hmem =>
    absurd (List.all_eq_true.1 hb _ ((List.takeWhile_prefix _).subset hmem)) (by decide)
  unfold bodyOnLine? at h ⊢
  rw [List.takeWhile_append] at h
  split at h
  · rename_i hlen
    rw [(List.takeWhile_prefix _).eq_of_length hlen]
    exact characterBody?_of_append hquote h
  · exact h

theorem bodyOnLine?_append {t : List Char} {n : Nat} (h : bodyOnLine? t = some n) (e : List Char) :
    bodyOnLine? (t ++ e) = some n := by
  unfold bodyOnLine? at h ⊢
  rw [List.takeWhile_append]
  split
  · rename_i hlen
    rw [(List.takeWhile_prefix _).eq_of_length hlen] at h
    exact characterBody?_append h _
  · exact h

/-- A slash is code before blanks. -/
theorem codeStep_slash_of_detached {cs : List Char} (h : Detached cs) (w : WordState) :
    codeStep .go w '/' cs = (.shown, .code (w.next '/')) := by
  refine codeStep_of_beginsNothing ?_ w
  unfold beginsNothing
  simp [h.1, h.2]

/-- A character is read the same whatever blanks stand behind the text. -/
theorem step_append_blank {mode : ScanMode} {c : Char} {t b e : List Char} (hgo : ofGo mode = true)
    (hb : Text.allBlank b = true) (he : Text.allBlank e = true)
    (h : settlesFrom mode (c :: (t ++ b)) = true) :
    step .go mode c (t ++ e) = step .go mode c (t ++ b) := by
  have hdetached := detached_of_allBlank hb
  have hdetached' := detached_of_allBlank he
  cases t with
  | cons d t =>
    -- only the next character is looked at, except for character literals
    cases mode with
    | code w =>
      have hbody (hc : c = '\'') : characterBody? (d :: t ++ e) = characterBody? (d :: t ++ b) := by
        obtain ⟨n, hn⟩ := exists_bodyOnLine? (meets_of_settlesFrom h) hc
        have hline := bodyOnLine?_of_append_blank hb hn
        rw [characterBody?_of_bodyOnLine? hline, characterBody?_of_bodyOnLine? hline]
      show codeStep .go w c (d :: t ++ e) = codeStep .go w c (d :: t ++ b)
      unfold codeStep
      split
      · simp only [List.cons_append]
        split <;> simp_all
      · rfl
      · rfl
      · rfl
      · rw [hbody rfl]
      · rfl
    | rawOpen left hashes => exact absurd hgo Bool.false_ne_true
    | raw hashes => exact absurd hgo Bool.false_ne_true
    | rawClose left => exact absurd hgo Bool.false_ne_true
    | character ahead => cases ahead <;> rfl
    | _ => rfl
  | nil =>
    rw [List.nil_append] at h ⊢
    rw [List.nil_append]
    -- blanks do not lead out of a literal
    have hliteral (next : ScanMode) (hstep : (step .go mode c b).2 = next)
        (hline : next ≠ .lineComment) (hcode : ∀ w, next ≠ .code w) : False := by
      subst hstep
      obtain ⟨w, hw⟩ := eq_code_of_settlesFrom_blank (ofGo_step hgo c b) hb hline
        (settlesFrom_step h)
      exact hcode w hw
    cases mode with
    | code w =>
      have hsingle : c ≠ '\'' := fun hc => by
        obtain ⟨n, hn⟩ := exists_bodyOnLine? (meets_of_settlesFrom h) hc
        have hline := @bodyOnLine?_of_append_blank [] b n hb hn
        exact absurd hline (by simp [bodyOnLine?, characterBody?])
      by_cases hslash : c = '/'
      · subst hslash
        exact (codeStep_slash_of_detached hdetached' w).trans
          (codeStep_slash_of_detached hdetached w).symm
      · show codeStep .go w c e = codeStep .go w c b
        unfold codeStep
        split
        · exact absurd rfl hslash
        · rfl
        · rfl
        · rfl
        · exact absurd rfl hsingle
        · rfl
    | blockComment =>
      have hclose : b.head? ≠ some '/' := hdetached.1
      have hclose' : e.head? ≠ some '/' := hdetached'.1
      simp [step, hclose, hclose']
    | quoted q escapes =>
      by_cases hescape : (escapes && c = '\\') = true
      · exact (hliteral (.escaped q) (by simp [step, hescape, literalStep]) (by simp)
          (by simp)).elim
      · by_cases hq : c = q
        · unfold step
          simp only [if_neg hescape, if_pos hq]
        · exact (hliteral (.quoted q escapes) (by simp [step, hescape, hq, literalStep]) (by simp)
            (by simp)).elim
    | escaped q => exact (hliteral (.quoted q true) rfl (by simp) (by simp)).elim
    | rawOpen left hashes => exact absurd hgo Bool.false_ne_true
    | raw hashes => exact absurd hgo Bool.false_ne_true
    | rawClose left => exact absurd hgo Bool.false_ne_true
    | character ahead => cases ahead <;> rfl
    | _ => rfl

/-- A text settles whatever blanks stand behind it, when what is left of the scan does. -/
theorem settlesFrom_append_blank {mode : ScanMode} {t b e : List Char} (hgo : ofGo mode = true)
    (hb : Text.allBlank b = true) (he : Text.allBlank e = true)
    (h : settlesFrom mode (t ++ b) = true) (hrest : settlesFrom (scanTo mode t b) e = true) :
    settlesFrom mode (t ++ e) = true := by
  induction t generalizing mode with
  | nil => exact hrest
  | cons c t ih =>
    have hmeets : meets mode c (t ++ e) = true := by
      have hmet := meets_of_settlesFrom h
      cases mode with
      | code w =>
        by_cases hc : c = '\''
        · obtain ⟨n, hn⟩ := exists_bodyOnLine? hmet hc
          have hline := bodyOnLine?_append (bodyOnLine?_of_append_blank hb hn) e
          unfold meets
          rw [hline, Option.isSome_some, Bool.or_true]
        · simp [meets, hc]
      | character ahead =>
        rcases ahead with _ | _ | _ <;> exact hmet
      | _ => exact hmet
    rw [List.cons_append, settlesFrom_cons, hmeets, step_append_blank hgo hb he h, Bool.true_and]
    exact ih (ofGo_step hgo c _) (settlesFrom_step h) hrest

/-- A text is read the same whatever blanks stand behind it. -/
theorem glyphsFrom_append_blank {mode : ScanMode} {t b : List Char} (hgo : ofGo mode = true)
    (hb : Text.allBlank b = true) (h : settlesFrom mode (t ++ b) = true) :
    ∃ gs, ∀ e, Text.allBlank e = true →
      glyphsFrom .go mode (t ++ e) = gs ++ glyphsFrom .go (scanTo mode t b) e := by
  induction t generalizing mode with
  | nil => exact ⟨[], fun e _ => rfl⟩
  | cons c t ih =>
    obtain ⟨gs, hgs⟩ := ih (ofGo_step hgo c (t ++ b)) (settlesFrom_step h)
    refine ⟨⟨c, (step .go mode c (t ++ b)).1⟩ :: gs, fun e he => ?_⟩
    have hstep := step_append_blank hgo hb he h
    rw [List.cons_append, glyphsFrom, hstep, hgs e he]
    rfl

/-- The scan of a line is in code or in a line comment before the blanks at its end. -/
theorem scanTo_of_settlesFrom_blank {mode : ScanMode} {t b : List Char} (hgo : ofGo mode = true)
    (hb : Text.allBlank b = true) (h : settlesFrom mode (t ++ b) = true) :
    scanTo mode t b = .lineComment ∨ ∃ w, scanTo mode t b = .code w := by
  by_cases hline : scanTo mode t b = .lineComment
  · exact .inl hline
  · exact .inr (eq_code_of_settlesFrom_blank (ofGo_scanTo hgo t b) hb hline (settlesFrom_scanTo h))

/-- A blank shows as blanks in code and in line comments, and leads out of neither into a literal. -/
theorem step_blank {mode : ScanMode} {c : Char} (hc : Text.isBlank c = true) (cs : List Char)
    (hmode : mode = .lineComment ∨ ∃ w, mode = .code w) :
    meets mode c cs = true ∧ Text.allBlank (Glyph.code ⟨c, (step .go mode c cs).1⟩) = true ∧
      ((step .go mode c cs).2 = .lineComment ∨ ∃ w, (step .go mode c cs).2 = .code w) := by
  rcases hmode with rfl | ⟨w, rfl⟩
  · refine ⟨rfl, ?_⟩
    by_cases hline : c = '\n'
    · subst hline
      exact ⟨rfl, .inr ⟨.fresh, rfl⟩⟩
    · have hstep : step .go .lineComment c cs = (.hidden, .lineComment) := if_neg hline
      rw [hstep]
      refine ⟨List.all_eq_true.2 fun d hd => ?_, .inl rfl⟩
      rcases eq_of_mem_blank hd with rfl | rfl <;> decide
  · have hsingle : c ≠ '\'' := by
      rintro rfl
      exact absurd hc (by decide)
    rw [step_code_of_isBareChar (isBareChar_of_isBlank hc)]
    refine ⟨by simp [meets, hsingle], ?_, .inr ⟨_, rfl⟩⟩
    show (Text.isBlank c && true) = true
    rw [hc, Bool.and_true]

theorem allBlank_showGlyphs {mode : ScanMode} {e : List Char} (he : Text.allBlank e = true)
    (hmode : mode = .lineComment ∨ ∃ w, mode = .code w) :
    Text.allBlank (showGlyphs (glyphsFrom .go mode e)) = true := by
  induction e generalizing mode with
  | nil => rfl
  | cons c e ih =>
    rw [Text.allBlank, List.all_cons, Bool.and_eq_true] at he
    obtain ⟨-, hblank, hnext⟩ := step_blank he.1 e hmode
    rw [glyphsFrom, showGlyphs_cons, Text.allBlank_append]
    exact ⟨hblank, ih he.2 hnext⟩

theorem settlesFrom_blank_newline {mode : ScanMode} {e : List Char} (he : Text.allBlank e = true)
    (hmode : mode = .lineComment ∨ ∃ w, mode = .code w) :
    settlesFrom mode (e ++ ['\n']) = true := by
  induction e generalizing mode with
  | nil => rcases hmode with rfl | ⟨w, rfl⟩ <;> rfl
  | cons c e ih =>
    rw [Text.allBlank, List.all_cons, Bool.and_eq_true] at he
    obtain ⟨hmeets, -, hnext⟩ := step_blank he.1 (e ++ ['\n']) hmode
    rw [List.cons_append, settlesFrom_cons, hmeets, ih he.2 hnext]
    rfl

/-- A line is masked the same whatever blanks stand behind it. -/
theorem exists_mask_append_blank {t e : List Char} (h : settles (t ++ ['\n']) = true)
    (he : Text.allBlank e = true) :
    ∃ b, mask .go (t ++ e) = mask .go t ++ b ∧ Text.allBlank b = true := by
  obtain ⟨gs, hgs⟩ := @glyphsFrom_append_blank _ t ['\n'] rfl (by decide) h
  have hmode := @scanTo_of_settlesFrom_blank _ t ['\n'] rfl (by decide) h
  have halone := hgs [] rfl
  rw [List.append_nil] at halone
  refine ⟨_, ?_, allBlank_showGlyphs he hmode⟩
  unfold mask glyphs
  rw [hgs e he, halone, glyphsFrom, List.append_nil, showGlyphs_append]

/-- Blanks before a text show as they are. -/
theorem mask_blank_append {b : List Char} (hb : Text.allBlank b = true) (t : List Char) :
    mask .go (b ++ t) = b ++ mask .go t := by
  induction b with
  | nil => rfl
  | cons c b ih =>
    rw [Text.allBlank, List.all_cons, Bool.and_eq_true] at hb
    rw [List.cons_append, mask_cons (isBareChar_of_isBlank hb.1), ih hb.2]
    rfl

/-! ## Content -/

/-- A line holds the same after masking whatever blanks stand around it. -/
theorem content_mask_blanks {head t tail : List Char} (h : settles (t ++ ['\n']) = true)
    (hhead : Text.allBlank head = true) (htail : Text.allBlank tail = true) :
    Text.content (mask .go (head ++ (t ++ tail))) = Text.content (mask .go t) := by
  obtain ⟨b, hmask, hb⟩ := exists_mask_append_blank h htail
  rw [mask_blank_append hhead, hmask, Text.content_blank_append hhead,
    Text.content_append_blank hb]

/-- A line settles with its line feed whatever blanks stand around it. -/
theorem settles_blanks {head t tail : List Char} (h : settles (t ++ ['\n']) = true)
    (hhead : Text.allBlank head = true) (htail : Text.allBlank tail = true) :
    settles (head ++ (t ++ (tail ++ ['\n']))) = true := by
  rw [(settles_blank_append hhead).1]
  have hmode := @scanTo_of_settlesFrom_blank _ t ['\n'] rfl (by decide) h
  exact @settlesFrom_append_blank _ t ['\n'] _ rfl (by decide)
    (Text.allBlank_append.2 ⟨htail, by decide⟩) h (settlesFrom_blank_newline htail hmode)

theorem content_mask_line {a : List Char} (ha : '\n' ∉ a)
    (h : ∀ r ∈ Text.content a, settles (r ++ ['\n']) = true) :
    settles (Text.trim a ++ ['\n']) = true ∧
      ((Text.content a).flatMap fun r => Text.content (mask .go r)) =
        Text.content (mask .go (Text.trim a)) := by
  rcases Text.content_line_cases ha with ⟨hnil, hcontent⟩ | hcontent
  · rw [hnil, hcontent]
    exact ⟨rfl, rfl⟩
  · rw [hcontent] at h ⊢
    exact ⟨h _ (List.mem_singleton.2 rfl), List.flatMap_singleton _ _⟩

/-- A line is masked on its own when what is left of it without the blanks around it settles. -/
theorem solid_line {a : List Char} (h : settles (Text.trim a ++ ['\n']) = true) :
    Solid (a ++ ['\n']) ∧
      Text.content (mask .go (a ++ ['\n'])) = Text.content (mask .go (Text.trim a)) := by
  obtain ⟨head, tail, heq, hhead, htail⟩ := Text.exists_trim a
  have hline : a ++ ['\n'] = head ++ (Text.trim a ++ (tail ++ ['\n'])) := by
    conv => lhs; rw [heq]
    simp only [List.append_assoc]
  refine ⟨⟨closed_of_settles ?_, by simp⟩, ?_⟩
  · rw [hline]
    exact settles_blanks h hhead htail
  · rw [hline]
    exact content_mask_blanks h hhead (Text.allBlank_append.2 ⟨htail, by decide⟩)

/-- Lines that settle are masked on their own when the last one ends in its line feed. -/
theorem solid_lines {t : List Char} (h : ∀ r ∈ Text.content t, settles (r ++ ['\n']) = true) :
    Solid (t ++ ['\n']) := by
  induction t using Text.lines_induction with
  | line a ha => exact (solid_line (content_mask_line ha h).1).1
  | more a b ha ih =>
    rw [Text.content_newline] at h
    have hline := content_mask_line ha fun r hr => h r (List.mem_append_left _ hr)
    rw [← List.singleton_append, ← List.append_assoc, List.append_assoc]
    exact (solid_line hline.1).1.append (ih fun r hr => h r (List.mem_append_right _ hr))

/-- No character is torn in a text that settles with blanks behind it. -/
theorem whole_of_settlesFrom_blank {mode : ScanMode} {t b : List Char} (hgo : ofGo mode = true)
    (hb : Text.allBlank b = true) (hne : b ≠ []) (h : settlesFrom mode (t ++ b) = true) :
    Whole (glyphsFrom .go mode t) := by
  induction t generalizing mode with
  | nil => exact fun g hg => absurd hg List.not_mem_nil
  | cons c t ih =>
    have hstep := step_append_blank hgo hb (e := []) rfl h
    rw [List.append_nil] at hstep
    intro g hg
    rcases List.mem_cons.1 hg with rfl | hg
    · rw [hstep]
      exact mark_step_ne_torn .go mode c (List.append_ne_nil_of_right_ne_nil t hne)
    · rw [hstep] at hg
      exact ih (ofGo_step hgo c (t ++ b)) (settlesFrom_step h) g hg

/-- No character is torn in a text whose lines settle. -/
theorem whole_lines {t : List Char} (h : ∀ r ∈ Text.content t, settles (r ++ ['\n']) = true) :
    Whole (glyphs .go t) := by
  induction t using Text.lines_induction with
  | line a ha =>
    obtain ⟨head, tail, heq, hhead, htail⟩ := Text.exists_trim a
    have hline := settles_blanks (content_mask_line ha h).1 hhead htail
    rw [← List.append_assoc, ← List.append_assoc, List.append_assoc head, ← heq] at hline
    exact @whole_of_settlesFrom_blank _ a ['\n'] rfl (by decide) (by simp) hline
  | more a b ha ih =>
    rw [Text.content_newline] at h
    have hline := content_mask_line ha fun r hr => h r (List.mem_append_left _ hr)
    have hclosed := (solid_line hline.1).1
    have hglyphs : glyphs .go (a ++ '\n' :: b) = glyphs .go (a ++ ['\n']) ++ glyphs .go b := by
      have := hclosed.closed b fun hslash => absurd hslash hclosed.no_slash
      rwa [List.append_assoc] at this
    intro g hg
    rw [hglyphs] at hg
    rcases List.mem_append.1 hg with hg | hg
    · exact hclosed.closed.whole g hg
    · exact ih (fun r hr => h r (List.mem_append_right _ hr)) g hg

/-- A masked text holds what its lines hold when each is masked on its own. -/
theorem content_mask {t : List Char} (h : ∀ r ∈ Text.content t, settles (r ++ ['\n']) = true) :
    Text.content (mask .go t) = (Text.content t).flatMap fun r => Text.content (mask .go r) := by
  induction t using Text.lines_induction with
  | line a ha =>
    obtain ⟨hsettles, hcontent⟩ := content_mask_line ha h
    obtain ⟨head, tail, heq, hhead, htail⟩ := Text.exists_trim a
    rw [hcontent]
    conv => lhs; rw [heq]
    exact content_mask_blanks hsettles hhead htail
  | more a b ha ih =>
    rw [Text.content_newline] at h ⊢
    obtain ⟨hsettles, hcontent⟩ := content_mask_line ha fun r hr => h r (List.mem_append_left _ hr)
    obtain ⟨hsolid, hfirst⟩ := solid_line hsettles
    obtain ⟨x, hx⟩ : ∃ x, mask .go (a ++ ['\n']) = x ++ ['\n'] :=
      exists_mask_append_newline (.code .fresh) a
    have hmask : mask .go (a ++ '\n' :: b) = x ++ '\n' :: mask .go b := by
      rw [← List.singleton_append, ← List.append_assoc, hsolid.mask_append, hx, List.append_assoc]
      rfl
    rw [hx, Text.content_append_blank (by decide)] at hfirst
    rw [hmask, Text.content_newline, List.flatMap_append, hcontent, hfirst,
      ih fun r hr => h r (List.mem_append_right _ hr)]

end RpcBindings.Masked
