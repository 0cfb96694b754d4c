import RpcBindings.Proofs.Masked.Behind
import RpcBindings.Proofs.Masked.Reading

/-!
Offsets in code.

A source can be cut where its scan stands in code: what follows the cut is masked on its own
(`InCode.exists_textFrom`), what stands between two such cuts is masked as in the source
(`mask_slice`), and it settles when no quote stands alone in it (`settles_slice`). The scan stands in
code on both sides of a character that shows and is no quote and no line feed (`inCode_of_hasChar`), and
a word that shows stands in the source (`textFrom_of_wordAt`).
-/

namespace RpcBindings.Masked

/-! ## Scans up to an offset -/

/-- Where a scan of a text stands behind its first part. -/
def scanTo : ScanMode → List Char → List Char → ScanMode
  | mode, [], _ => mode
  | mode, c :: cs, rest => scanTo (step .go mode c (cs ++ rest)).2 cs rest

/-- A scan that begins in a mode can meet all characters of the text. -/
def legibleFrom : ScanMode → List Char → Bool
  | _, [] => true
  | mode, c :: cs => meets mode c cs && legibleFrom (step .go mode c cs).2 cs

/-- No quote stands alone in the text. -/
def legible (t : List Char) : Bool :=
  legibleFrom (.code .fresh) t

theorem scanTo_eq (mode : ScanMode) (a rest : List Char) :
    scanTo mode a rest = modeBehind .go mode a rest := by
  induction a generalizing mode with
  | nil => rfl
  | cons c a ih => exact ih (step .go mode c (a ++ rest)).2

theorem scanTo_append (mode : ScanMode) (a b rest : List Char) :
    scanTo mode (a ++ b) rest = scanTo (scanTo mode a (b ++ rest)) b rest := by
  simp only [scanTo_eq, modeBehind_append]

/-- Behind its first part a text is scanned from where the scan stands. -/
theorem exists_glyphsFrom_append (mode : ScanMode) (a rest : List Char) :
    ∃ gs : List Glyph, gs.map (·.char) = a ∧
      glyphsFrom .go mode (a ++ rest) = gs ++ glyphsFrom .go (scanTo mode a rest) rest :=
  ⟨glyphsBefore .go mode a rest, map_char_glyphsBefore .go mode a rest,
    scanTo_eq mode a rest ▸ glyphsFrom_behind .go mode a rest⟩

theorem ofGo_scanTo {mode : ScanMode} (h : ofGo mode = true) (a rest : List Char) :
    ofGo (scanTo mode a rest) = true := by
  induction a generalizing mode with
  | nil => exact h
  | cons c a ih => exact ih (ofGo_step h c (a ++ rest))

/-- A character behind which the scan stands in code is not torn. -/
theorem mark_step_ne_torn_of_code {mode : ScanMode} {c : Char} {rest : List Char} {w : WordState}
    (hgo : ofGo mode = true) (h : (step .go mode c rest).2 = .code w) :
    (step .go mode c rest).1 ≠ .torn := by
  cases rest with
  | cons d rest => exact mark_step_ne_torn .go mode c (List.cons_ne_nil d rest)
  | nil =>
    unfold step at h ⊢
    cases mode with
    | code w =>
      simp only
      unfold codeStep
      extract_lets plain
      repeat' split
      all_goals simp [plain]
    | quoted q escapes =>
      simp only at h ⊢
      split at h
      · exact absurd h (by simp [literalStep])
      · split at h
        · rename_i hescape hq
          rw [if_neg hescape, if_pos hq]
          simp
        · exact absurd h (by simp [literalStep])
    | escaped q => exact absurd h (by simp [literalStep])
    | lineComment => simp only; split <;> simp
    | blockOpen => simp
    | blockComment => simp only; split <;> simp
    | blockClose => simp
    | rawOpen left hashes => exact absurd hgo Bool.false_ne_true
    | raw hashes => exact absurd hgo Bool.false_ne_true
    | rawClose left => exact absurd hgo Bool.false_ne_true
    | character ahead =>
      cases ahead with
      | zero => simp only; split <;> simp
      | succ n => simp

/-- No character is torn before a place where the scan stands in code. -/
theorem whole_of_scanTo {mode : ScanMode} {a rest : List Char} {gs : List Glyph} {w : WordState}
    (hgo : ofGo mode = true) (hmode : scanTo mode a rest = .code w)
    (hchars : gs.map (·.char) = a)
    (hgs : glyphsFrom .go mode (a ++ rest) = gs ++ glyphsFrom .go (scanTo mode a rest) rest) :
    Whole gs := by
  induction a generalizing mode gs with
  | nil =>
    obtain rfl := List.map_eq_nil_iff.1 hchars
    exact fun g hg => absurd hg List.not_mem_nil
  | cons c a ih =>
    obtain ⟨g, gs, rfl, -, hchars⟩ := List.map_eq_cons_iff.1 hchars
    rw [List.cons_append, glyphsFrom, scanTo] at hgs
    obtain ⟨hg, hgs⟩ := List.cons.inj hgs
    have hlater := ih (ofGo_step hgo c (a ++ rest)) hmode hchars hgs
    intro x hx
    rcases List.mem_cons.1 hx with rfl | hx
    · rw [← hg]
      cases a with
      | nil =>
        rw [scanTo, scanTo] at hmode
        exact mark_step_ne_torn_of_code hgo hmode
      | cons d a => exact mark_step_ne_torn .go mode c (List.cons_ne_nil d _)
    · exact hlater x hx

/-! ## Offsets in code -/

/-- The scan of the source stands in code at an offset. -/
def InCode (m : Masked) (i : Nat) : Prop :=
  ∃ a rest w, m.source = a ++ rest ∧ Text.byteLength a = i ∧ scanTo (.code .fresh) a rest = .code w

variable {source : List Char} {i j : Nat}

/-- What follows an offset in code is masked on its own. -/
theorem InCode.textFrom {a rest : List Char} {w : WordState} (hsource : source = a ++ rest)
    (hmode : scanTo (.code .fresh) a rest = .code w) :
    (ofSource .go source).TextFrom (Text.byteLength a) rest := by
  obtain ⟨gs, hchars, hgs⟩ := exists_glyphsFrom_append (.code .fresh) a rest
  have hwhole := whole_of_scanTo rfl hmode hchars hgs
  refine ⟨⟨a, hsource, rfl⟩, showGlyphs gs, ?_, ?_⟩
  · show mask .go source = _
    rw [hsource, mask, glyphs, hgs, hmode, glyphsFrom_code, showGlyphs_append]
    rfl
  · rw [byteLength_showGlyphs hwhole, hchars]

theorem InCode.exists_textFrom (h : (ofSource .go source).InCode i) :
    ∃ rest, (ofSource .go source).TextFrom i rest := by
  obtain ⟨a, rest, w, hsource, rfl, hmode⟩ := h
  exact ⟨rest, InCode.textFrom hsource hmode⟩

/-- A source can be cut at an offset in code. -/
theorem InCode.cutsAt (h : (ofSource .go source).InCode i) : (ofSource .go source).CutsAt i := by
  obtain ⟨rest, ⟨a, hsource, hi⟩, b, hcode, hi'⟩ := h.exists_textFrom
  exact ⟨⟨a, rest, hsource, hi⟩, b, _, hcode, hi'⟩

/-! ## Characters that show -/

/-- A character that shows only in code, and leaves the scan there. -/
def isCodeChar (c : Char) : Bool :=
  c.utf8Size == 1 && c != ' ' && c != '\n' && c != '"' && c != '`' && c != '\''

theorem code_of_shown {mode : ScanMode} {c : Char} {rest : List Char} (hgo : ofGo mode = true)
    (hshown : (step .go mode c rest).1 = .shown) (hc : isCodeChar c = true) :
    ∃ w w', mode = .code w ∧ (step .go mode c rest).2 = .code w' := by
  unfold isCodeChar at hc
  simp only [Bool.and_eq_true, bne_iff_ne] at hc
  obtain ⟨⟨⟨⟨-, hline⟩, hquote⟩, hback⟩, hsingle⟩ := hc
  have hliteral {next : ScanMode} : (literalStep rest next).1 ≠ .shown := by
    unfold literalStep
    split <;> simp
  unfold step at hshown ⊢
  cases mode with
  | code w =>
    refine ⟨w, ?_⟩
    simp only at hshown ⊢
    unfold codeStep at hshown ⊢
    extract_lets at hshown ⊢
    split at hshown
    · split at hshown
      · exact absurd hshown (by simp)
      · exact absurd hshown (by simp)
      · exact ⟨_, trivial, rfl⟩
    · rw [if_neg (by simp)]
      exact ⟨_, trivial, rfl⟩
    · exact absurd rfl hquote
    · exact absurd rfl hback
    · exact absurd rfl hsingle
    · exact ⟨_, trivial, rfl⟩
  | lineComment =>
    simp only [if_neg hline] at hshown
    exact absurd hshown (by simp)
  | blockOpen => exact absurd hshown (by simp)
  | blockComment =>
    simp only at hshown
    split at hshown <;> exact absurd hshown (by simp)
  | blockClose => exact absurd hshown (by simp)
  | quoted q escapes =>
    have hq : c ≠ q := by
      rintro rfl
      unfold ofGo at hgo
      simp only [Bool.or_eq_true, beq_iff_eq] at hgo
      exact hgo.elim hquote hback
    simp only [if_neg hq] at hshown
    split at hshown
    · exact absurd hshown hliteral
    · exact absurd hshown hliteral
  | escaped q => exact absurd hshown hliteral
  | rawOpen left hashes => exact absurd hgo Bool.false_ne_true
  | raw hashes => exact absurd hgo Bool.false_ne_true
  | rawClose left => exact absurd hgo Bool.false_ne_true
  | character ahead =>
    cases ahead with
    | zero =>
      simp only [if_neg hsingle] at hshown
      exact absurd hshown (by simp)
    | succ n => exact absurd hshown (by simp)

/-- The scan stands in code before and after a character that shows, unless the source ends there. -/
theorem inCode_of_hasChar {c : Char} (h : (ofSource .go source).hasChar i c = true)
    (hc : isCodeChar c = true) (hlast : i + 1 < (ofSource .go source).size) :
    (ofSource .go source).InCode i ∧ (ofSource .go source).InCode (i + 1) := by
  have hchar := hc
  unfold isCodeChar at hchar
  simp only [Bool.and_eq_true, bne_iff_ne, beq_iff_eq] at hchar
  obtain ⟨⟨⟨⟨⟨hnarrow, hspace⟩, hline⟩, -⟩, -⟩, -⟩ := hchar
  obtain ⟨x, d, y, hcode, rfl, hd, heq⟩ :=
    Text.exists_split_of_ascii (hasChar_iff.1 h) (Text.toUInt8_lt_of_narrow hnarrow)
  obtain rfl : d = c := Text.eq_of_toUInt8_eq hd hnarrow heq
  obtain ⟨before, g, after, hgs, rfl, hshow, rfl⟩ :=
    exists_glyph_of_showGlyphs_eq hcode (.inr hnarrow) hspace
  have hsource : source = before.map (·.char) ++ g.char :: after.map (·.char) := by
    rw [← map_char_glyphs .go source, hgs, List.map_append, List.map_cons]
  have hwhole : Whole before := whole_of_glyphsFrom_eq hgs
  have hlen : Text.byteLength (before.map (·.char)) = Text.byteLength (showGlyphs before) :=
    (byteLength_showGlyphs hwhole).symm
  -- the glyph is the step of the scan there
  obtain ⟨gs, hchars, happend⟩ := exists_glyphsFrom_append (.code .fresh) (before.map (·.char))
    (g.char :: after.map (·.char))
  rw [← hsource] at happend
  obtain ⟨rfl, hstep⟩ := List.append_inj (hgs.symm.trans happend)
    (by simpa using (congrArg List.length hchars).symm)
  rw [glyphsFrom] at hstep
  have hmark := congrArg Glyph.mark (List.cons.inj hstep).1
  simp only at hmark
  have hshown : g.mark = .shown := by
    unfold Glyph.code at hshow
    cases hm : g.mark with
    | shown => rfl
    | hidden =>
      rw [hm] at hshow
      simp only [Glyph.blank, if_neg hline, hnarrow] at hshow
      exact absurd (List.cons.inj hshow).1.symm hspace
    | torn =>
      rw [hm] at hmark
      have hnil : after = [] := by
        by_cases hnil : after = []
        · exact hnil
        · exact absurd hmark.symm (mark_step_ne_torn .go _ _ (by simpa using hnil))
      have hsize : (ofSource .go source).size =
          Text.byteLength (showGlyphs before) + Text.byteLength g.code := by
        show (Text.bytes (mask .go source)).length = _
        rw [Text.length_bytes, mask, hgs, hnil, showGlyphs_append, showGlyphs_cons,
          Text.byteLength_append, Text.byteLength_append]
        rfl
      rw [show g.code = [g.char] from hshow, Text.byteLength_cons, hnarrow] at hsize
      exact absurd hlast (by rw [hsize]; exact Nat.lt_irrefl _)
  rw [hshown] at hmark
  obtain ⟨w, w', hmode, hnext⟩ := code_of_shown (ofGo_scanTo rfl _ _) hmark.symm hc
  refine ⟨⟨_, _, w, hsource, hlen, hmode⟩, before.map (·.char) ++ [g.char], after.map (·.char), w', ?_,
    ?_, ?_⟩
  · rw [List.append_assoc]
    exact hsource
  · rw [Text.byteLength_append, hlen, Text.byteLength_cons, hnarrow]
    rfl
  · rw [scanTo_append]
    exact hnext

/-- Where a character other than a space shows, it stands in the source. -/
theorem slice_of_hasChar {lang : SourceLang} {c : Char}
    (h : (ofSource lang source).hasChar i c = true) (hc : c.utf8Size = 1) (hspace : c ≠ ' ') :
    (ofSource lang source).slice i (i + 1) = [c] := by
  obtain ⟨x, d, y, hcode, rfl, hd, heq⟩ :=
    Text.exists_split_of_ascii (hasChar_iff.1 h) (Text.toUInt8_lt_of_narrow hc)
  obtain rfl : d = c := Text.eq_of_toUInt8_eq hd hc heq
  obtain ⟨before, g, after, hgs, rfl, -, hchar⟩ :=
    exists_glyph_of_showGlyphs_eq hcode (.inr hd) hspace
  have hsource : source = before.map (·.char) ++ [d] ++ after.map (·.char) := by
    rw [← map_char_glyphs lang source, hgs, List.map_append, List.map_cons, hchar]
    simp
  have hlen := byteLength_showGlyphs (whole_of_glyphsFrom_eq hgs)
  have hcut := Text.cut_append (before.map (·.char)) [d] (after.map (·.char))
  rw [← hsource, ← hlen, Text.byteLength_cons, hd] at hcut
  exact hcut

/-! ## Texts between offsets in code -/

theorem quote_mem_of_scanTo {t rest : List Char} {w : WordState}
    (h : scanTo (.character 0) t rest = .code w) : '\'' ∈ t := by
  induction t with
  | nil => exact absurd h (by simp [scanTo])
  | cons c t ih =>
    by_cases hc : c = '\''
    · exact hc ▸ List.mem_cons_self
    · have hstep : (step .go (.character 0) c (t ++ rest)).2 = .character 0 := by simp [step, hc]
      rw [scanTo, hstep] at h
      exact List.mem_cons_of_mem c (ih h)

/-- A literal that ends in a text is read as one without what follows the text. -/
theorem characterBody?_of_scanTo {t rest : List Char} {n : Nat} {w : WordState}
    (hbody : characterBody? (t ++ rest) = some n) (h : scanTo (.character n) t rest = .code w) :
    characterBody? t = some n := by
  match t with
  | [] => exact absurd h (by simp [scanTo])
  | [c] =>
    cases n with
    | zero =>
      refine absurd hbody ?_
      unfold characterBody?
      split <;> simp
    | succ n => exact absurd h (by simp [scanTo, step])
  | c :: d :: t =>
    by_cases hslash : c = '\\'
    · subst hslash
      obtain ⟨hif, hn⟩ := Option.ite_none_right_eq_some.1 hbody
      obtain rfl := Option.some.inj hn
      have hquote : '\'' ∈ t := quote_mem_of_scanTo h
      rw [Bool.and_eq_true] at hif
      rw [characterBody?, hif.1, List.contains_iff_mem.2 hquote]
      rfl
    · have hquote : d = '\'' := by
        refine Decidable.byContradiction fun hquote => ?_
        simp [characterBody?, hslash, hquote] at hbody
      subst hquote
      have hone (e : List Char) : characterBody? (c :: '\'' :: e) = some 1 := by
        simp [characterBody?]
      rw [List.cons_append, List.cons_append, hone] at hbody
      rw [hone, hbody]

/-- A character of a text that ends in code is read as it is without what follows the text. -/
theorem step_eq_of_scanTo {mode : ScanMode} {c : Char} {cs rest : List Char} {w : WordState}
    (hgo : ofGo mode = true) (h : scanTo mode (c :: cs) rest = .code w) :
    step .go mode c (cs ++ rest) = step .go mode c cs := by
  rw [scanTo] at h
  have hliteral (next : ScanMode) (hnext : (literalStep (cs ++ rest) next).2 = next)
      (hcode : ∀ w, next ≠ .code w) (hscan : scanTo next cs rest = .code w) :
      literalStep (cs ++ rest) next = literalStep cs next := by
    cases cs with
    | nil => exact absurd hscan (hcode w)
    | cons d cs => rfl
  cases mode with
  | code v =>
    show codeStep .go v c (cs ++ rest) = codeStep .go v c cs
    have h : scanTo (codeStep .go v c (cs ++ rest)).2 cs rest = .code w := h
    unfold codeStep at h ⊢
    extract_lets at h ⊢
    split
    · cases cs with
      | nil =>
        rw [List.nil_append] at h ⊢
        split
        · exact absurd h (by simp [scanTo])
        · exact absurd h (by simp [scanTo])
        · rfl
      | cons d cs =>
        rw [List.cons_append]
        split <;> simp_all
    · rfl
    · rfl
    · rfl
    · cases hbody : characterBody? (cs ++ rest) with
      | none =>
        cases halone : characterBody? cs with
        | none => rfl
        | some n => exact absurd (hbody.symm.trans (characterBody?_append halone rest)) (by simp)
      | some n =>
        simp only [hbody] at h
        rw [characterBody?_of_scanTo hbody h]
    · rfl
  | blockComment =>
    cases cs with
    | nil =>
      rw [List.nil_append] at h ⊢
      unfold step at h ⊢
      simp only at h ⊢
      split at h <;> exact absurd h (by simp [scanTo])
    | cons d cs => rfl
  | quoted q escapes =>
    unfold step at h ⊢
    simp only at h ⊢
    split
    · rename_i hescape
      rw [if_pos hescape] at h
      exact hliteral _ rfl (by simp) h
    · rename_i hescape
      rw [if_neg hescape] at h
      split
      · rfl
      · rename_i hq
        rw [if_neg hq] at h
        exact hliteral _ rfl (by simp) h
  | escaped q => exact hliteral _ rfl (by simp) h
  | rawOpen left hashes => exact absurd hgo Bool.false_ne_true
  | raw hashes => exact absurd hgo Bool.false_ne_true
  | rawClose left => exact absurd hgo Bool.false_ne_true
  | character ahead => cases ahead <;> rfl
  | lineComment => rfl
  | blockOpen => rfl
  | blockClose => rfl

/-- A text that ends in code is scanned as it is without what follows it. -/
theorem glyphsFrom_append_of_scanTo {mode : ScanMode} {t rest : List Char} {w : WordState}
    (hgo : ofGo mode = true) (h : scanTo mode t rest = .code w) :
    glyphsFrom .go mode (t ++ rest) = glyphsFrom .go mode t ++ glyphs .go rest ∧
      endModeFrom .go mode t = .code w := by
  induction t generalizing mode with
  | nil =>
    obtain rfl : mode = .code w := h
    exact ⟨glyphsFrom_code w rest, rfl⟩
  | cons c t ih =>
    have hstep := step_eq_of_scanTo hgo h
    rw [scanTo, hstep] at h
    obtain ⟨hglyphs, hend⟩ := ih (ofGo_step hgo c t) h
    refine ⟨?_, hend⟩
    rw [List.cons_append, glyphsFrom, hstep, hglyphs, glyphsFrom]
    rfl

/-- A literal that ends in a text stands on its line there as it does with what follows. -/
theorem bodyOnLine?_of_scanTo {t rest : List Char} {n : Nat} {w : WordState}
    (hbody : bodyOnLine? (t ++ rest) = some n) (h : scanTo (.character n) t rest = .code w) :
    bodyOnLine? t = some n := by
  have hcontext : characterBody? (t ++ rest) = some n := by
    have := characterBody?_of_bodyOnLine? hbody []
    rwa [List.append_nil] at this
  have halone := characterBody?_of_scanTo hcontext h
  unfold bodyOnLine? at hbody ⊢
  rw [List.takeWhile_append] at hbody
  split at hbody
  · rename_i hlen
    rw [(List.takeWhile_prefix _).eq_of_length hlen]
    exact halone
  · exact hbody

/-- The first part of a text that settles does so on its own when it ends in code. -/
theorem settlesFrom_of_scanTo {mode : ScanMode} {t rest : List Char} {w : WordState}
    (hgo : ofGo mode = true) (h : settlesFrom mode (t ++ rest) = true)
    (hmode : scanTo mode t rest = .code w) : settlesFrom mode t = true := by
  induction t generalizing mode with
  | nil =>
    obtain rfl : mode = .code w := hmode
    rfl
  | cons c t ih =>
    have hstep := step_eq_of_scanTo hgo hmode
    rw [List.cons_append] at h
    have hmeets := meets_of_settlesFrom h
    have hlater := settlesFrom_step h
    rw [scanTo] at hmode
    rw [settlesFrom_cons, Bool.and_eq_true, ← hstep]
    refine ⟨?_, ih (ofGo_step hgo c _) hlater hmode⟩
    cases mode with
    | code v =>
      by_cases hc : c = '\''
      · obtain ⟨n, hn⟩ := exists_bodyOnLine? hmeets hc
        have hopens : (step .go (.code v) c (t ++ rest)).2 = .character n := by
          have hbody := characterBody?_of_bodyOnLine? hn []
          rw [List.append_nil] at hbody
          subst hc
          show (codeStep .go v '\'' (t ++ rest)).2 = _
          unfold codeStep
          simp only [hbody]
        rw [hopens] at hmode
        unfold meets
        rw [bodyOnLine?_of_scanTo hn hmode, Option.isSome_some, Bool.or_true]
      · unfold meets
        simp [hc]
    | character ahead =>
      match ahead with
      | 0 | 1 | _ + 2 => exact hmeets
    | _ => exact hmeets

/-- A text that ends in code settles when no quote stands alone in it. -/
theorem settlesFrom_of_endModeFrom {mode : ScanMode} {t : List Char} {w : WordState}
    (hlegible : legibleFrom mode t = true) (h : endModeFrom .go mode t = .code w) :
    settlesFrom mode t = true := by
  induction t generalizing mode with
  | nil =>
    obtain rfl : mode = .code w := h
    rfl
  | cons c t ih =>
    rw [legibleFrom, Bool.and_eq_true] at hlegible
    rw [settlesFrom_cons, Bool.and_eq_true]
    exact ⟨hlegible.1, ih hlegible.2 h⟩

/-- Which word stands before a text does not matter for where its scan ends. -/
theorem endModeFrom_code (v w : WordState) (t : List Char) :
    endModeFrom .go (.code v) t = endModeFrom .go (.code w) t ∨
      ∃ v' w', endModeFrom .go (.code v) t = .code v' ∧ endModeFrom .go (.code w) t = .code w' := by
  induction t generalizing v w with
  | nil => exact .inr ⟨v, w, rfl, rfl⟩
  | cons c t ih =>
    show endModeFrom .go (codeStep .go v c t).2 t = endModeFrom .go (codeStep .go w c t).2 t ∨
      ∃ v' w', endModeFrom .go (codeStep .go v c t).2 t = .code v' ∧
        endModeFrom .go (codeStep .go w c t).2 t = .code w'
    obtain ⟨-, heq | ⟨v', w', hv, hw⟩⟩ := codeStep_go v w c t
    · exact .inl (by rw [heq])
    · rw [hv, hw]
      exact ih v' w'

theorem scanTo_nil (mode : ScanMode) (t : List Char) : scanTo mode t [] = endModeFrom .go mode t := by
  induction t generalizing mode with
  | nil => rfl
  | cons c t ih =>
    rw [scanTo, List.append_nil, ih]
    rfl

/-- No character is torn of a text that ends in code. -/
theorem whole_of_endMode {t : List Char} {w : WordState} (h : endMode .go t = .code w) :
    Whole (glyphs .go t) := by
  have hmode : scanTo (.code .fresh) t [] = .code w := (scanTo_nil _ t).trans h
  refine whole_of_scanTo rfl hmode (map_char_glyphs .go t) ?_
  rw [List.append_nil, hmode, glyphsFrom, List.append_nil]
  rfl

/-- What stands between two offsets in code, with what is known of its scan. -/
theorem InCode.exists_between (hi : (ofSource .go source).InCode i)
    (hj : (ofSource .go source).InCode j) (hij : i ≤ j) :
    ∃ a t rest w, source = a ++ (t ++ rest) ∧ Text.byteLength a = i ∧ j = i + Text.byteLength t ∧
      (ofSource .go source).slice i j = t ∧ endMode .go t = .code w ∧
      glyphs .go (t ++ rest) = glyphs .go t ++ glyphs .go rest ∧
      (ofSource .go source).TextFrom i (t ++ rest) := by
  obtain ⟨a, b, w, hab, rfl, hmode⟩ := hi
  obtain ⟨a', rest, w', hab', rfl, hmode'⟩ := hj
  have hab : source = a ++ b := hab
  have hab' : source = a' ++ rest := hab'
  obtain ⟨t, rfl, rfl, -⟩ := Text.exists_split_of_le hab hab' hij
  rw [scanTo_append, hmode] at hmode'
  obtain ⟨hglyphs, hend⟩ := glyphsFrom_append_of_scanTo rfl hmode'
  have hfresh : ∃ v, endMode .go t = .code v := by
    obtain heq | ⟨-, v, -, hv⟩ := endModeFrom_code w .fresh t
    · exact ⟨w', heq.symm.trans hend⟩
    · exact ⟨v, hv⟩
  obtain ⟨v, hv⟩ := hfresh
  rw [glyphsFrom_code, glyphsFrom_code] at hglyphs
  refine ⟨a, t, rest, v, hab, rfl, Text.byteLength_append a t, ?_, hv, hglyphs,
    InCode.textFrom hab hmode⟩
  show Text.cut _ _ source = t
  rw [hab', Text.byteLength_append, Text.cut_append]

/-- Between two offsets in code the masked copy is the mask of what stands there. -/
theorem mask_slice (hi : (ofSource .go source).InCode i) (hj : (ofSource .go source).InCode j)
    (hij : i ≤ j) :
    (ofSource .go source).codeSlice i j = mask .go ((ofSource .go source).slice i j) := by
  obtain ⟨a, t, rest, w, -, -, rfl, hslice, hend, hglyphs, htext⟩ := hi.exists_between hj hij
  have hmask : mask .go (t ++ rest) = mask .go t ++ mask .go rest := by
    unfold mask
    rw [hglyphs, showGlyphs_append]
  have hlen := (whole_of_endMode hend).unsplit.byteLength_mask
  have hcode := htext.2
  rw [hmask] at hcode
  rw [hslice, ← hlen, hcode.codeSlice]

/-- What stands between two offsets in code settles when no quote stands alone in it. -/
theorem settles_slice (hi : (ofSource .go source).InCode i) (hj : (ofSource .go source).InCode j)
    (hij : i ≤ j) (hlegible : legible ((ofSource .go source).slice i j) = true) :
    settles ((ofSource .go source).slice i j) = true := by
  obtain ⟨a, t, rest, w, -, -, -, hslice, hend, -, -⟩ := hi.exists_between hj hij
  rw [hslice] at hlegible ⊢
  exact settlesFrom_of_endModeFrom hlegible hend

/-! ## Words of the source -/

/-- Characters that show one behind the other stand in the source. -/
theorem sourceFrom_of_hasChar {word : List Char} (hcut : (ofSource .go source).CutsAt i)
    (h : ∀ k c, word[k]? = some c → (ofSource .go source).hasChar (i + k) c = true)
    (hword : ∀ c ∈ word, c.utf8Size = 1 ∧ c ≠ ' ') :
    ∃ rest, (ofSource .go source).SourceFrom i (word ++ rest) := by
  induction word generalizing i with
  | nil =>
    obtain ⟨⟨a, rest, hsource, ha⟩, -⟩ := hcut
    exact ⟨rest, a, hsource, ha⟩
  | cons c word ih =>
    obtain ⟨hc, hspace⟩ := hword c List.mem_cons_self
    have hchar : (ofSource .go source).hasChar i c = true := h 0 c rfl
    have hnext := (cutsAt_of_hasChar hchar hc hspace).2
    obtain ⟨rest, b, hb, hlen⟩ := ih hnext
      (fun k d hd => by rw [Nat.add_assoc, Nat.add_comm 1 k]; exact h (k + 1) d hd)
      fun d hd => hword d (List.mem_cons_of_mem c hd)
    obtain ⟨⟨a, b', ha, rfl⟩, -⟩ := hcut
    obtain ⟨mid, rfl, rfl, hmid⟩ := Text.exists_split_of_le ha hb (by omega)
    have hslice := slice_of_hasChar hchar hc hspace
    have hmid : (ofSource .go source).slice (Text.byteLength a) (Text.byteLength a + 1) = mid := by
      rw [← hlen]
      exact hmid
    rw [hslice] at hmid
    exact ⟨rest, a, by rw [ha, ← hmid]; rfl, rfl⟩

/-- The bytes of characters of one byte are those characters. -/
theorem getElem?_bytes_of_narrow {word : List Char} (hword : ∀ c ∈ word, c.utf8Size = 1) {k : Nat}
    {c : Char} (hc : word[k]? = some c) : (Text.bytes word)[k]? = some c.toUInt8 := by
  induction word generalizing k with
  | nil => exact absurd hc (by simp)
  | cons a word ih =>
    rw [Text.bytes_cons_of_narrow (hword a List.mem_cons_self)]
    cases k with
    | zero => exact congrArg _ (congrArg Char.toUInt8 (Option.some.inj hc))
    | succ k => exact ih (fun d hd => hword d (List.mem_cons_of_mem a hd)) hc

/-- A word that shows stands in the source, and the scan is in code there. -/
theorem textFrom_of_wordAt {word : List Char} {c d : Char}
    (h : (ofSource .go source).wordAt (c :: d :: word) i = true)
    (hword : ∀ e ∈ c :: d :: word, isCodeChar e = true) :
    ∃ rest, (ofSource .go source).TextFrom i (c :: d :: word ++ rest) := by
  have hshort (e : Char) (he : e ∈ c :: d :: word) : e.utf8Size = 1 ∧ e ≠ ' ' := by
    have := hword e he
    unfold isCodeChar at this
    simp only [Bool.and_eq_true, beq_iff_eq, bne_iff_ne] at this
    exact ⟨this.1.1.1.1.1, this.1.1.1.1.2⟩
  have hchar {k : Nat} {e : Char} (he : (c :: d :: word)[k]? = some e) :
      (ofSource .go source).hasChar (i + k) e = true :=
    hasChar_of_wordAt h (getElem?_bytes_of_narrow (fun e he => (hshort e he).1) he)
  have hfirst := hchar (k := 0) rfl
  have hin := (inCode_of_hasChar hfirst (hword c List.mem_cons_self)
    (lt_size_of_hasChar (hchar (k := 1) rfl))).1
  obtain ⟨rest, b, hb, hlen⟩ := sourceFrom_of_hasChar hin.cutsAt (fun k e he => hchar he) hshort
  obtain ⟨rest', htext⟩ := hin.exists_textFrom
  obtain ⟨b', hb', hlen'⟩ := htext.1
  obtain ⟨mid, rfl, hrest, -⟩ := Text.exists_split_of_le hb hb' (by omega)
  rw [Text.byteLength_append] at hlen'
  obtain rfl : mid = [] := Text.byteLength_eq_zero (by omega)
  exact ⟨rest, hrest ▸ htext⟩

end RpcBindings.Masked
