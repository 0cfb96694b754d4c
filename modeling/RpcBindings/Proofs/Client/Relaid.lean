import RpcBindings.Proofs.Client.Symbol
import RpcBindings.Proofs.Masked.Nest
import RpcBindings.Proofs.Text.Relaid

/-!
Masked texts that differ in their layout only.

Blanks that hold a line feed leave a scan where it stands in code, in a block comment and in a literal
that goes on over lines, and lead it out of a line comment (`behindGap`). So other blanks around another
line feed change nothing of how the text behind them is read. Main statement: when two texts differ in
their layout only, they settle together and so do their masks (`settlesFrom_of_relaid`), in particular
when they hold the same (`settles_of_content_eq`).
-/

namespace RpcBindings.Masked

open Text (Relaid)

/-! ## Scans over blanks -/

/-- Where a scan stands behind one blank. -/
def behindBlank (mode : ScanMode) (c : Char) : ScanMode :=
  match mode with
  | .code _ => .code .fresh
  | .lineComment => if c = '\n' then .code .fresh else .lineComment
  | .escaped q => .quoted q true
  | mode => mode

/-- Where a scan stands behind blanks that hold a line feed. -/
def behindGap (mode : ScanMode) : ScanMode :=
  match mode with
  | .code _ | .lineComment => .code .fresh
  | .escaped q => .quoted q true
  | mode => mode

/-- The scan can meet blanks that hold a line feed. -/
def spansLines : ScanMode → Bool
  | .code _ | .lineComment | .blockComment | .quoted .. | .escaped _ => true
  | _ => false

theorem foldl_behindBlank {g : List Char} (hline : '\n' ∈ g) (mode : ScanMode) :
    g.foldl behindBlank mode = behindGap mode := by
  have hcalm (mode : ScanMode) (g : List Char) :
      g.foldl behindBlank (behindGap mode) = behindGap mode := by
    have hstep (c : Char) : behindBlank (behindGap mode) c = behindGap mode := by cases mode <;> rfl
    induction g with
    | nil => rfl
    | cons c g ih => rw [List.foldl_cons, hstep, ih]
  induction g generalizing mode with
  | nil => exact absurd hline List.not_mem_nil
  | cons c g ih =>
    rw [List.foldl_cons]
    by_cases hc : c = '\n'
    · have hfirst : behindBlank mode c = behindGap mode := by subst hc; cases mode <;> rfl
      rw [hfirst, hcalm]
    · have hlater : behindGap (behindBlank mode c) = behindGap mode := by
        cases mode with
        | lineComment => simp [behindBlank, hc]
        | _ => rfl
      rw [ih ((List.mem_cons.1 hline).resolve_left (Ne.symm hc)), hlater]

/-- A scan settles at the end of a text only in code. -/
theorem eq_code_of_settlesFrom_nil {mode : ScanMode} (h : settlesFrom mode [] = true) :
    ∃ w, mode = .code w := by
  cases mode with
  | code w => exact ⟨w, rfl⟩
  | _ => exact absurd h Bool.false_ne_true

/-- One blank is met and leads where it does whatever follows it. -/
theorem step_of_isBlank {mode : ScanMode} {c : Char} (hgo : ofGo mode = true)
    (hspan : spansLines mode = true) (hc : Text.isBlank c = true) (cs : List Char) :
    meets mode c cs = true ∧ (step .go mode c cs).2 = behindBlank mode c := by
  have hbare := isBareChar_of_isBlank hc
  unfold isBareChar at hbare
  simp only [Bool.and_eq_true, bne_iff_ne] at hbare
  obtain ⟨⟨⟨hquote, hback⟩, hsingle⟩, hslash⟩ := hbare
  cases mode with
  | code w =>
    refine ⟨by simp [meets, hsingle], ?_⟩
    rw [step_code_of_isBareChar (isBareChar_of_isBlank hc)]
    simp [WordState.next, behindBlank, isWordChar_of_isBlank hc]
  | lineComment =>
    refine ⟨rfl, ?_⟩
    by_cases hline : c = '\n' <;> simp [step, behindBlank, hline]
  | blockComment =>
    have hstar : c ≠ '*' := by
      rintro rfl
      exact absurd hc (by decide)
    exact ⟨rfl, by simp [step, behindBlank, hstar]⟩
  | quoted q escapes =>
    have hq : c ≠ q := by
      rintro rfl
      simp only [ofGo, Bool.or_eq_true, beq_iff_eq] at hgo
      exact hgo.elim hquote hback
    have hescape : c ≠ '\\' := by
      rintro rfl
      exact absurd hc (by decide)
    exact ⟨rfl, by simp [step, behindBlank, hq, hescape, literalStep]⟩
  | escaped q => exact ⟨rfl, rfl⟩
  | blockOpen | blockClose | rawOpen _ _ | raw _ | rawClose _ | character _ =>
    exact absurd hspan Bool.false_ne_true

/-- A scan that settles meets blanks with a line feed only where it can. -/
theorem spansLines_of_settlesFrom {mode : ScanMode} {g a : List Char} (hgo : ofGo mode = true)
    (hg : Text.allBlank g = true) (hline : '\n' ∈ g) (h : settlesFrom mode (g ++ a) = true) :
    spansLines mode = true := by
  induction g generalizing mode with
  | nil => exact absurd hline List.not_mem_nil
  | cons c g ih =>
    rw [Text.allBlank, List.all_cons, Bool.and_eq_true] at hg
    have hmeets := meets_of_settlesFrom h
    have hlater := settlesFrom_step h
    cases mode with
    | code w => rfl
    | lineComment => rfl
    | blockComment => rfl
    | quoted q escapes => rfl
    | escaped q => rfl
    | blockOpen =>
      obtain rfl : c = '*' := by simpa [meets] using hmeets
      exact absurd hg.1 (by decide)
    | blockClose =>
      obtain rfl : c = '/' := by simpa [meets] using hmeets
      exact absurd hg.1 (by decide)
    | character ahead =>
      -- a character literal does not go on over its line
      have hsingle : c ≠ '\'' := by
        rintro rfl
        exact absurd hg.1 (by decide)
      rcases ahead with _ | _ | ahead
      · have hc : c ≠ '\n' := by simpa [meets] using hmeets
        have hstep (cs : List Char) : (step .go (.character 0) c cs).2 = .character 0 := by
          simp [step, hsingle]
        rw [hstep] at hlater
        have := ih rfl hg.2 ((List.mem_cons.1 hline).resolve_left (Ne.symm hc)) hlater
        exact absurd this Bool.false_ne_true
      · have hc : c ≠ '\n' := by simpa [meets] using hmeets
        have := @ih (.character 0) rfl hg.2
          ((List.mem_cons.1 hline).resolve_left (Ne.symm hc)) hlater
        exact absurd this Bool.false_ne_true
      · obtain rfl : c = '\\' := by simpa [meets] using hmeets
        exact absurd hg.1 (by decide)
    | rawOpen left hashes => exact absurd hgo Bool.false_ne_true
    | raw hashes => exact absurd hgo Bool.false_ne_true
    | rawClose left => exact absurd hgo Bool.false_ne_true

theorem spansLines_behindBlank {mode : ScanMode} (h : spansLines mode = true) (c : Char) :
    spansLines (behindBlank mode c) = true := by
  cases mode with
  | lineComment => simp only [behindBlank]; split <;> rfl
  | code w => rfl
  | escaped q => rfl
  | _ => exact h

/-- Whether a text settles behind blanks depends on where they lead. -/
theorem settlesFrom_blanks {mode : ScanMode} {g : List Char} (hgo : ofGo mode = true)
    (hspan : spansLines mode = true) (hg : Text.allBlank g = true) (a : List Char) :
    settlesFrom mode (g ++ a) = settlesFrom (g.foldl behindBlank mode) a := by
  induction g generalizing mode with
  | nil => rfl
  | cons c g ih =>
    rw [Text.allBlank, List.all_cons, Bool.and_eq_true] at hg
    obtain ⟨hmeets, hstep⟩ := step_of_isBlank hgo hspan hg.1 (g ++ a)
    rw [List.cons_append, settlesFrom_cons, hmeets, Bool.true_and, hstep,
      ih (hstep ▸ ofGo_step hgo c (g ++ a)) (spansLines_behindBlank hspan c) hg.2]
    rfl

/-- Blanks show as blanks, and the text behind them is read from where they lead. -/
theorem glyphsFrom_blanks {mode : ScanMode} {g : List Char} (hgo : ofGo mode = true)
    (hspan : spansLines mode = true) (hg : Text.allBlank g = true) {a : List Char}
    (ha : settlesFrom (g.foldl behindBlank mode) a = true) :
    ∃ x, Text.allBlank x = true ∧ ('\n' ∈ g → '\n' ∈ x) ∧
      showGlyphs (glyphsFrom .go mode (g ++ a)) =
        x ++ showGlyphs (glyphsFrom .go (g.foldl behindBlank mode) a) := by
  induction g generalizing mode with
  | nil => exact ⟨[], rfl, fun h => h, rfl⟩
  | cons c g ih =>
    rw [Text.allBlank, List.all_cons, Bool.and_eq_true] at hg
    obtain ⟨-, hstep⟩ := step_of_isBlank hgo hspan hg.1 (g ++ a)
    have hgo' : ofGo (behindBlank mode c) = true := hstep ▸ ofGo_step hgo c (g ++ a)
    obtain ⟨x, hx, hline, hshow⟩ := ih hgo' (spansLines_behindBlank hspan c) hg.2 ha
    -- a blank is torn only where the text ends inside a literal
    have hmark : (step .go mode c (g ++ a)).1 ≠ .torn := by
      by_cases hrest : g ++ a = []
      · obtain ⟨rfl, rfl⟩ := List.append_eq_nil_iff.1 hrest
        obtain ⟨w, hw⟩ := eq_code_of_settlesFrom_nil ha
        exact mark_step_ne_torn_of_code hgo (hstep.trans hw)
      · exact mark_step_ne_torn .go mode c hrest
    have hcode : Text.allBlank (Glyph.code ⟨c, (step .go mode c (g ++ a)).1⟩) = true ∧
        (c = '\n' → '\n' ∈ Glyph.code ⟨c, (step .go mode c (g ++ a)).1⟩) := by
      cases hm : (step .go mode c (g ++ a)).1 with
      | shown =>
        refine ⟨?_, fun hc => hc ▸ List.mem_cons_self⟩
        show (Text.isBlank c && true) = true
        rw [hg.1, Bool.and_true]
      | hidden =>
        refine ⟨List.all_eq_true.2 fun d hd => ?_, ?_⟩
        · rcases eq_of_mem_blank hd with rfl | rfl <;> decide
        · rintro rfl
          decide
      | torn => exact absurd hm hmark
    refine ⟨Glyph.code ⟨c, (step .go mode c (g ++ a)).1⟩ ++ x, Text.allBlank_append.2 ⟨hcode.1, hx⟩,
      fun hmem => ?_, ?_⟩
    · rcases List.mem_cons.1 hmem with hc | hmem
      · exact List.mem_append_left x (hcode.2 hc.symm)
      · exact List.mem_append_right _ (hline hmem)
    · rw [List.cons_append, glyphsFrom, showGlyphs_cons, hstep, hshow, List.append_assoc]
      rfl

/-! ## Characters before a text -/

section Relaid

variable {a b : List Char}

/-- Texts that differ in their layout only begin with the same character, blanks aside. -/
theorem head?_iff_of_relaid (h : Relaid a b) {c : Char} (hc : Text.isBlank c = false) :
    a.head? = some c ↔ b.head? = some c := by
  cases h with
  | nil => exact Iff.rfl
  | char d _ => exact Iff.rfl
  | gap hblank hblank' hline hline' _ =>
    have hnot {g rest : List Char} (hg : Text.allBlank g = true) (hline : '\n' ∈ g) :
        (g ++ rest).head? ≠ some c := by
      cases g with
      | nil => exact absurd hline List.not_mem_nil
      | cons d g =>
        intro h
        rw [← Option.some.inj h, List.all_eq_true.1 hg d List.mem_cons_self] at hc
        exact Bool.noConfusion hc
    exact ⟨fun h => absurd h (hnot hblank hline), fun h => absurd h (hnot hblank' hline')⟩

/-- Texts that differ in their layout only begin with the same line, but for the blanks at its end. -/
theorem exists_firstLine_of_relaid (h : Relaid a b) :
    ∃ p g g', a.takeWhile (· != '\n') = p ++ g ∧ b.takeWhile (· != '\n') = p ++ g' ∧
      Text.allBlank g = true ∧ Text.allBlank g' = true := by
  induction h with
  | nil => exact ⟨[], [], [], rfl, rfl, rfl, rfl⟩
  | char c _ ih =>
    obtain ⟨p, g, g', ha, hb, hg, hg'⟩ := ih
    by_cases hc : c = '\n'
    · subst hc
      exact ⟨[], [], [], rfl, rfl, rfl, rfl⟩
    · refine ⟨c :: p, g, g', ?_, ?_, hg, hg'⟩
      · rw [List.takeWhile_cons_of_pos (by simpa using hc), ha]
        rfl
      · rw [List.takeWhile_cons_of_pos (by simpa using hc), hb]
        rfl
  | @gap g g' a b hblank hblank' hline hline' _ _ =>
    have hfirst {g : List Char} (rest : List Char) (hg : Text.allBlank g = true) (hline : '\n' ∈ g) :
        Text.allBlank ((g ++ rest).takeWhile (· != '\n')) = true := by
      obtain ⟨x, y, rfl, hx⟩ := List.eq_append_cons_of_mem hline
      rw [List.append_assoc, List.takeWhile_append_of_pos fun c hc => by
        simpa using fun heq : c = '\n' => hx (heq ▸ hc)]
      exact Text.allBlank_append.2 ⟨(Text.allBlank_append.1 hg).1, rfl⟩
    exact ⟨[], _, _, rfl, rfl, hfirst a hblank hline, hfirst b hblank' hline'⟩

/-- A character literal on its line is read as one in any layout. -/
theorem bodyOnLine?_of_relaid (h : Relaid a b) {n : Nat} (hn : bodyOnLine? a = some n) :
    bodyOnLine? b = some n := by
  obtain ⟨p, g, g', ha, hb, hg, -⟩ := exists_firstLine_of_relaid h
  have hquote : '\'' ∉ g := fun hmem => absurd (List.all_eq_true.1 hg _ hmem) (by decide)
  unfold bodyOnLine? at hn ⊢
  rw [ha] at hn
  rw [hb]
  exact characterBody?_append (characterBody?_of_append hquote hn) g'

theorem codeStep_slash (w : WordState) (cs : List Char) : codeStep .go w '/' cs =
    if cs.head? = some '/' then (.hidden, .lineComment)
    else if cs.head? = some '*' then (.hidden, .blockOpen)
    else (.shown, .code (w.next '/')) := by
  split
  · rename_i h
    obtain ⟨rest, rfl⟩ := List.head?_eq_some_iff.1 h
    rfl
  · rename_i hslash
    split
    · rename_i h
      obtain ⟨rest, rfl⟩ := List.head?_eq_some_iff.1 h
      rfl
    · rename_i hstar
      exact codeStep_slash_of_detached ⟨hslash, hstar⟩ w

/-- A character is met and read the same in any layout. -/
theorem step_of_relaid (h : Relaid a b) {mode : ScanMode} {c : Char} (hgo : ofGo mode = true)
    (hmeets : meets mode c a = true) :
    meets mode c b = true ∧ step .go mode c b = step .go mode c a := by
  have hempty : b.isEmpty = a.isEmpty := by
    have := h.nil_iff
    cases a <;> cases b <;> simp_all
  have hliteral (next : ScanMode) : literalStep b next = literalStep a next := by
    unfold literalStep
    rw [hempty]
  cases mode with
  | code w =>
    have hbody (hc : c = '\'') : bodyOnLine? b = bodyOnLine? a ∧
        characterBody? b = characterBody? a := by
      obtain ⟨n, hn⟩ := exists_bodyOnLine? hmeets hc
      have hn' := bodyOnLine?_of_relaid h hn
      have hread {cs : List Char} (hcs : bodyOnLine? cs = some n) : characterBody? cs = some n := by
        have := characterBody?_of_bodyOnLine? hcs []
        rwa [List.append_nil] at this
      exact ⟨hn'.trans hn.symm, (hread hn').trans (hread hn).symm⟩
    constructor
    · by_cases hc : c = '\''
      · unfold meets at hmeets ⊢
        rwa [(hbody hc).1]
      · simp [meets, hc]
    · show codeStep .go w c b = codeStep .go w c a
      have hslash := head?_iff_of_relaid h (c := '/') (by decide)
      have hstar := head?_iff_of_relaid h (c := '*') (by decide)
      unfold codeStep
      split
      · show codeStep .go w '/' b = codeStep .go w '/' a
        rw [codeStep_slash, codeStep_slash]
        simp only [hslash, hstar]
      · rfl
      · rfl
      · rfl
      · rw [(hbody rfl).2]
      · rfl
  | blockComment =>
    have hslash := head?_iff_of_relaid h (c := '/') (by decide)
    refine ⟨rfl, ?_⟩
    unfold step
    simp only [Bool.and_eq_true, decide_eq_true_eq]
    rw [if_congr (and_congr_right fun _ => hslash.symm) rfl rfl]
  | quoted q escapes =>
    refine ⟨rfl, ?_⟩
    unfold step
    simp only [hliteral]
  | escaped q => exact ⟨rfl, hliteral _⟩
  | rawOpen left hashes => exact absurd hgo Bool.false_ne_true
  | raw hashes => exact absurd hgo Bool.false_ne_true
  | rawClose left => exact absurd hgo Bool.false_ne_true
  | character ahead => rcases ahead with _ | _ | ahead <;> exact ⟨hmeets, rfl⟩
  | lineComment => exact ⟨hmeets, rfl⟩
  | blockOpen => exact ⟨hmeets, rfl⟩
  | blockClose => exact ⟨hmeets, rfl⟩

/-- Texts that differ in their layout only settle together, and so do their masks. -/
theorem settlesFrom_of_relaid (h : Relaid a b) {mode : ScanMode} (hgo : ofGo mode = true)
    (ha : settlesFrom mode a = true) : settlesFrom mode b = true ∧
      Relaid (showGlyphs (glyphsFrom .go mode a)) (showGlyphs (glyphsFrom .go mode b)) := by
  induction h generalizing mode with
  | nil => exact ⟨ha, .nil⟩
  | @char c a b rest ih =>
    obtain ⟨hmeets, hstep⟩ := step_of_relaid rest hgo (meets_of_settlesFrom ha)
    obtain ⟨hb, hrelaid⟩ := ih (ofGo_step hgo c a) (settlesFrom_step ha)
    rw [settlesFrom_cons, glyphsFrom, glyphsFrom, showGlyphs_cons, showGlyphs_cons, hmeets, hstep, hb]
    exact ⟨rfl, hrelaid.append_left _⟩
  | @gap g g' a b hblank hblank' hline hline' rest ih =>
    have hspan := spansLines_of_settlesFrom hgo hblank hline ha
    have hgo' : ofGo (behindGap mode) = true := by
      cases mode <;> first | rfl | exact hgo
    rw [settlesFrom_blanks hgo hspan hblank, foldl_behindBlank hline] at ha
    obtain ⟨hb, hrelaid⟩ := ih hgo' ha
    obtain ⟨x, hx, hxline, hshow⟩ := glyphsFrom_blanks (a := a) hgo hspan hblank (by
      rwa [foldl_behindBlank hline])
    obtain ⟨y, hy, hyline, hshow'⟩ := glyphsFrom_blanks (a := b) hgo hspan hblank' (by
      rwa [foldl_behindBlank hline'])
    rw [hshow, hshow', settlesFrom_blanks hgo hspan hblank', foldl_behindBlank hline,
      foldl_behindBlank hline']
    exact ⟨hb, .gap hx hy (hxline hline) (hyline hline') hrelaid⟩

/-! ## What does not depend on the layout -/

theorem delimiters_of_relaid (h : Relaid a b) : delimiters a = delimiters b := by
  induction h with
  | nil => rfl
  | char c _ ih => rw [delimiters_cons, ih, ← delimiters_cons]
  | gap hblank hblank' _ _ _ ih =>
    rw [delimiters_append, delimiters_append, delimiters_of_allBlank hblank,
      delimiters_of_allBlank hblank', ih]

theorem symbols_of_relaid (h : Relaid a b) : symbols a = symbols b := by
  -- with the part of a word that has been read before
  suffices hword : ∀ w : List Char, symbols (w ++ a) = symbols (w ++ b) from hword []
  induction h with
  | nil => exact fun _ => rfl
  | @char c a b _ ih =>
    intro w
    rw [← List.singleton_append, ← List.append_assoc, ih (w ++ [c]), List.append_assoc]
    rfl
  | @gap g g' a b hblank hblank' hline hline' _ ih =>
    intro w
    have hsplit {g : List Char} (hg : Text.allBlank g = true) (hline : '\n' ∈ g)
        (rest : List Char) : symbols (w ++ (g ++ rest)) = symbols w ++ symbols rest := by
      have hbegins : beginsNoWord (g ++ rest) = true := by
        cases g with
        | nil => exact absurd hline List.not_mem_nil
        | cons c g =>
          have := isWordChar_of_isBlank (List.all_eq_true.1 hg c List.mem_cons_self)
          simp [beginsNoWord, this]
      rw [symbols_append (.inr hbegins), symbols_blank_append hg]
    rw [hsplit hblank hline, hsplit hblank' hline', show symbols a = symbols b from ih []]

end Relaid

/-- Two texts that hold the same settle together, and their masks show the same symbols and delimiters. -/
theorem settles_of_content_eq {cs cs' : List Char} (h : Text.content cs = Text.content cs')
    (hs : settles (cs ++ ['\n']) = true) : settles (cs' ++ ['\n']) = true ∧
      delimiters (mask .go cs') = delimiters (mask .go cs) ∧
      symbols (mask .go cs') = symbols (mask .go cs) := by
  have hsheet (cs : List Char) : Relaid ('\n' :: (cs ++ ['\n'])) (Text.sheet (Text.content cs)) :=
    Text.relaid_sheet cs
  -- a line feed before the text and one behind it do not count
  have hmask {cs : List Char} (hs : settles (cs ++ ['\n']) = true) :
      ∃ b, mask .go ('\n' :: (cs ++ ['\n'])) = ['\n'] ++ (mask .go cs ++ b) ∧
        Text.allBlank b = true := by
    obtain ⟨b, hb, hblank⟩ := exists_mask_append_blank hs (e := ['\n']) (by decide)
    exact ⟨b, by rw [mask_cons (by decide), hb]; rfl, hblank⟩
  have hdelimiters {m b : List Char} (hb : Text.allBlank b = true) :
      delimiters (['\n'] ++ (m ++ b)) = delimiters m := by
    rw [delimiters_append, delimiters_append, delimiters_of_allBlank hb, List.append_nil]
    rfl
  have hsymbols {m b : List Char} (hb : Text.allBlank b = true) :
      symbols (['\n'] ++ (m ++ b)) = symbols m := by
    rw [symbols_blank_append (by decide), symbols_append_blank hb]
  have hgo : ofGo (.code .fresh) = true := rfl
  obtain ⟨hmid, hrelaid⟩ := settlesFrom_of_relaid (hsheet cs) hgo hs
  rw [h] at hmid hrelaid
  obtain ⟨hs', hrelaid'⟩ := settlesFrom_of_relaid (hsheet cs').symm hgo hmid
  have hs' : settles (cs' ++ ['\n']) = true := hs'
  obtain ⟨b, hb, hblank⟩ := hmask hs
  obtain ⟨b', hb', hblank'⟩ := hmask hs'
  have hsame := delimiters_of_relaid hrelaid'
  have hsame' := symbols_of_relaid hrelaid'
  rw [← delimiters_of_relaid hrelaid] at hsame
  rw [← symbols_of_relaid hrelaid] at hsame'
  change delimiters (mask .go ('\n' :: (cs ++ ['\n']))) =
    delimiters (mask .go ('\n' :: (cs' ++ ['\n']))) at hsame
  change symbols (mask .go ('\n' :: (cs ++ ['\n']))) =
    symbols (mask .go ('\n' :: (cs' ++ ['\n']))) at hsame'
  rw [hb, hb', hdelimiters hblank, hdelimiters hblank'] at hsame
  rw [hb, hb', hsymbols hblank, hsymbols hblank'] at hsame'
  exact ⟨hs', hsame.symm, hsame'.symm⟩

end RpcBindings.Masked
