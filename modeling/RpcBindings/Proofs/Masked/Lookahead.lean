import RpcBindings.Proofs.Masked.Behind
import RpcBindings.Proofs.Masked.Lexeme
import RpcBindings.Proofs.Masked.Shown

/-!
How far a scan looks ahead.

To tell a comment or a literal from code the scan looks at what follows, for the rest of an escaped
character literal even to the end of the text. A character that it does not look for stops it: what is
shown up to such a character, when it is code, is shown whatever stands behind the character, as long
as no single quote does (`modeBehind_congr`). Main statement: a text that ends as a statement does is
masked the same alone and before such a text (`mask_append_of_code`), and that it ends in code can be
seen from its masked copies, alone and before some other text (`mask_append_of_shown_last`).
-/

namespace RpcBindings.Masked

variable {lang : SourceLang} {w : WordState} {c : Char} {t x y : List Char}

/-- The characters that the scan looks for ahead of a position. -/
def lookaheads : List Char :=
  ['/', '*', '#', '"', '\'', '\\']

theorem ne_of_not_mem_lookaheads {d : Char} (hc : c ∉ lookaheads) (hd : d ∈ lookaheads) : c ≠ d :=
  fun h => hc (h ▸ hd)

/-! ## Single lookaheads -/

theorem head?_append_cons (t : List Char) (c : Char) (x y : List Char) :
    (t ++ c :: x).head? = (t ++ c :: y).head? := by
  cases t <;> rfl

theorem rawHashes?_congr (hc : c ∉ lookaheads) (t x y : List Char) :
    rawHashes? (t ++ c :: x) = rawHashes? (t ++ c :: y) := by
  have hstop (z : List Char) : rawHashes? (c :: z) = none :=
    rawHashes?.eq_3 (c :: z)
      (fun _ h => ne_of_not_mem_lookaheads hc (by decide) (List.cons.inj h).1)
      (fun _ h => ne_of_not_mem_lookaheads hc (by decide) (List.cons.inj h).1)
  induction t with
  | nil => rw [List.nil_append, List.nil_append, hstop, hstop]
  | cons d t ih =>
    by_cases hquote : d = '"'
    · subst hquote
      rfl
    · by_cases hhash : d = '#'
      · subst hhash
        exact congrArg (Option.map (· + 1)) ih
      · simp [rawHashes?, hquote, hhash]

theorem beginsWithHashes_congr (hc : c ∉ lookaheads) (n : Nat) (t x y : List Char) :
    beginsWithHashes n (t ++ c :: x) = beginsWithHashes n (t ++ c :: y) := by
  induction t generalizing n with
  | nil =>
    have hhash : c ≠ '#' := ne_of_not_mem_lookaheads hc (by decide)
    cases n with
    | zero => rfl
    | succ n => simp [beginsWithHashes, hhash]
  | cons d t ih =>
    cases n with
    | zero => rfl
    | succ n =>
      by_cases hd : d = '#'
      · subst hd
        exact ih n
      · simp [beginsWithHashes, hd]

theorem codeStep_slash_congr {a b : List Char} (h : a.head? = b.head?) :
    codeStep lang w '/' a = codeStep lang w '/' b := by
  match a, b, h with
  | [], [], _ => rfl
  | d :: a, e :: b, h =>
    obtain rfl := Option.some.inj h
    unfold codeStep
    extract_lets plain
    by_cases hslash : d = '/'
    · subst hslash
      rfl
    · by_cases hstar : d = '*'
      · subst hstar
        rfl
      · simp [hslash, hstar]

/-- Without a quote an open character literal goes on. -/
theorem modeBehind_character (h : '\'' ∉ t) (rest : List Char) :
    modeBehind lang (.character 0) t rest = .character 0 := by
  induction t with
  | nil => rfl
  | cons d t ih =>
    rw [List.mem_cons, not_or] at h
    rw [modeBehind, step, if_neg (Ne.symm h.1)]
    exact ih h.2

/-- Before a text without quotes a quote opens no literal that it does not open before another text,
and any that it opens there only would still be open at the seam. -/
theorem characterBody?_congr_or (lang : SourceLang) (hc : c ∉ lookaheads) (hy : '\'' ∉ y)
    (t x : List Char) :
    characterBody? (t ++ c :: x) = characterBody? (t ++ c :: y) ∨
      ∃ n k, characterBody? (t ++ c :: x) = some n ∧
        modeBehind lang (.character n) t (c :: x) = .character k := by
  have hquote : c ≠ '\'' := ne_of_not_mem_lookaheads hc (by decide)
  have hback : c ≠ '\\' := ne_of_not_mem_lookaheads hc (by decide)
  match t with
  | [] =>
    have hnone : characterBody? (c :: y) = none :=
      characterBody?_eq_none hback fun h => hy (List.mem_of_head? h)
    by_cases hx : x.head? = some '\''
    · obtain ⟨x, rfl⟩ : ∃ x', x = '\'' :: x' := List.head?_eq_some_iff.1 hx
      exact .inr ⟨1, 1, by simp [characterBody?], rfl⟩
    · exact .inl ((characterBody?_eq_none hback hx).trans hnone.symm)
  | [d] =>
    by_cases hd : d = '\\'
    · subst hd
      by_cases hx : (decide (c.utf8Size = 1) && x.contains '\'') = true
      · exact .inr ⟨2, 1, if_pos hx, rfl⟩
      · exact .inl ((if_neg hx).trans (if_neg (by simp [hy])).symm)
    · have hnone (z : List Char) : characterBody? (d :: c :: z) = none :=
        characterBody?_eq_none hd fun h => hquote (Option.some.inj h)
      exact .inl ((hnone x).trans (hnone y).symm)
  | d :: e :: t =>
    by_cases hd : d = '\\'
    · subst hd
      by_cases ht : '\'' ∈ t
      · exact .inl (by simp [characterBody?, ht])
      · by_cases hx : (decide (e.utf8Size = 1) && (t ++ c :: x).contains '\'') = true
        · exact .inr ⟨2, 0, if_pos hx, modeBehind_character ht _⟩
        · exact .inl ((if_neg hx).trans (if_neg (by simp [ht, hy, Ne.symm hquote])).symm)
    · by_cases he : e = '\''
      · subst he
        exact .inl (by simp [characterBody?])
      · exact .inl (by simp [characterBody?, hd, he])

/-! ## The scan up to a stop -/

/-- A step before which code stands at the seam does not look behind it. -/
theorem codeStep_congr (hc : c ∉ lookaheads) (hy : '\'' ∉ y) {d : Char}
    (h : ∃ v, modeBehind lang (codeStep lang w d (t ++ c :: x)).2 t (c :: x) = .code v) :
    codeStep lang w d (t ++ c :: x) = codeStep lang w d (t ++ c :: y) := by
  by_cases hslash : d = '/'
  · subst hslash
    exact codeStep_slash_congr (head?_append_cons t c x y)
  · by_cases hr : d = 'r'
    · subst hr
      unfold codeStep
      simp only [rawHashes?_congr hc t x y]
    · by_cases hquote : d = '\''
      · subst hquote
        rcases characterBody?_congr_or lang hc hy t x with heq | ⟨n, k, hn, hk⟩
        · unfold codeStep
          simp only [heq]
        · obtain ⟨v, hv⟩ := h
          have hopen : (codeStep lang w '\'' (t ++ c :: x)).2 = .character n := by
            unfold codeStep
            simp only [hn]
          rw [hopen, hk] at hv
          exact absurd hv (by simp)
      · unfold codeStep
        split
        · exact absurd rfl hslash
        · exact absurd rfl hr
        · rfl
        · rfl
        · exact absurd rfl hquote
        · rfl

theorem step_congr (hc : c ∉ lookaheads) (hy : '\'' ∉ y) {mode : ScanMode} {d : Char}
    (h : ∃ v, modeBehind lang (step lang mode d (t ++ c :: x)).2 t (c :: x) = .code v) :
    step lang mode d (t ++ c :: x) = step lang mode d (t ++ c :: y) := by
  have hempty (z : List Char) : (t ++ c :: z).isEmpty = false := by simp
  cases mode with
  | code w => exact codeStep_congr hc hy h
  | blockComment =>
    unfold step
    simp only [head?_append_cons t c x y]
  | quoted q escapes =>
    unfold step literalStep
    simp only [hempty]
  | escaped q =>
    unfold step literalStep
    simp only [hempty]
  | raw hashes =>
    unfold step
    simp only [beginsWithHashes_congr hc hashes t x y]
  | _ => rfl

/-- What stands behind a stop in code has no part in what is shown up to the stop. -/
theorem modeBehind_congr (hc : c ∉ lookaheads) (hy : '\'' ∉ y) {mode : ScanMode}
    (h : modeBehind lang mode t (c :: x) = .code w) :
    modeBehind lang mode t (c :: y) = .code w ∧
      glyphsBefore lang mode t (c :: y) = glyphsBefore lang mode t (c :: x) := by
  induction t generalizing mode with
  | nil => exact ⟨h, rfl⟩
  | cons d t ih =>
    rw [modeBehind] at h
    obtain ⟨hmode, hglyphs⟩ := ih h
    rw [modeBehind, glyphsBefore, glyphsBefore, ← step_congr hc hy ⟨w, h⟩, hglyphs]
    exact ⟨hmode, rfl⟩

/-! ## Modes and what they have been entered for -/

/-- What the scan has seen ahead when it entered a mode. -/
def Fits : ScanMode → List Char → Prop
  | .quoted q _, _ | .escaped q, _ => q = '"' ∨ q = '`'
  | .rawOpen left _, cs => ∃ rest, cs = List.replicate left '#' ++ '"' :: rest
  | .rawClose left, cs => ∃ rest, cs = List.replicate (left + 1) '#' ++ rest
  | _, _ => True

theorem fits_codeStep (w : WordState) (c : Char) (cs : List Char) :
    Fits (codeStep lang w c cs).2 cs := by
  unfold codeStep
  extract_lets plain
  split
  · split <;> trivial
  · split
    · cases hn : rawHashes? cs with
      | none => trivial
      | some n => exact rawHashes?_eq_some hn
    · trivial
  · exact .inl rfl
  · split
    · exact .inr rfl
    · trivial
  · cases characterBody? cs <;> trivial
  · trivial

theorem exists_replicate_of_beginsWithHashes {n : Nat} {cs : List Char}
    (h : beginsWithHashes n cs = true) : ∃ rest, cs = List.replicate n '#' ++ rest := by
  induction n generalizing cs with
  | zero => exact ⟨cs, rfl⟩
  | succ n ih =>
    cases cs with
    | nil => exact absurd h Bool.false_ne_true
    | cons d cs =>
      by_cases hd : d = '#'
      · subst hd
        obtain ⟨rest, rfl⟩ := ih h
        exact ⟨rest, rfl⟩
      · exact absurd h (by simp [beginsWithHashes, hd])

theorem fits_step {mode : ScanMode} {cs : List Char} (h : Fits mode (c :: cs)) :
    Fits (step lang mode c cs).2 cs := by
  unfold step
  cases mode with
  | code w => exact fits_codeStep w c cs
  | lineComment => simp only; split <;> trivial
  | blockOpen => trivial
  | blockComment => simp only; split <;> trivial
  | blockClose => trivial
  | quoted q escapes =>
    simp only
    repeat' split
    all_goals first | exact h | trivial
  | escaped q => exact h
  | rawOpen left hashes =>
    obtain ⟨rest, hrest⟩ := h
    cases left with
    | zero => trivial
    | succ left => exact ⟨rest, (List.cons.inj hrest).2⟩
  | raw hashes =>
    simp only
    split
    · rename_i hclose
      simp only [Bool.and_eq_true] at hclose
      cases hashes with
      | zero => trivial
      | succ left => exact exists_replicate_of_beginsWithHashes hclose.2
    · trivial
  | rawClose left =>
    obtain ⟨rest, hrest⟩ := h
    cases left with
    | zero => trivial
    | succ left => exact ⟨rest, (List.cons.inj hrest).2⟩
  | character ahead =>
    cases ahead with
    | zero => simp only; split <;> trivial
    | succ n => trivial

theorem fits_modeBehind {mode : ScanMode} {rest : List Char} (h : Fits mode (t ++ rest)) :
    Fits (modeBehind lang mode t rest) rest := by
  induction t generalizing mode with
  | nil => exact h
  | cons d t ih => exact ih (fits_step h)

/-! ## Texts that end as a statement does -/

/-- A character with which a statement ends. -/
def isStatementEnd (c : Char) : Bool :=
  c == ';' || c == '}'

theorem isStatementEnd_iff : isStatementEnd c = true ↔ c = ';' ∨ c = '}' := by
  simp [isStatementEnd]

theorem not_mem_lookaheads (hc : isStatementEnd c = true) : c ∉ lookaheads := by
  rcases isStatementEnd_iff.1 hc with rfl | rfl <;> decide

/-- In code the end of a statement is shown, and no word goes on behind it. -/
theorem codeStep_statementEnd (hc : isStatementEnd c = true) (w : WordState) (rest : List Char) :
    codeStep lang w c rest = (.shown, .code .fresh) := by
  rcases isStatementEnd_iff.1 hc with rfl | rfl <;> rfl

/-- The end of a statement is shown in code only. -/
theorem code_of_step_shown {mode : ScanMode} {rest : List Char} (hc : isStatementEnd c = true)
    (hfits : Fits mode (c :: rest)) (h : (step lang mode c rest).1 = .shown) :
    ∃ w, mode = .code w := by
  have hne {d : Char} (hd : isStatementEnd d = false) : c ≠ d := by
    rintro rfl
    rw [hd] at hc
    exact Bool.false_ne_true hc
  have hliteral {next : ScanMode} : (literalStep rest next).1 ≠ .shown := by
    unfold literalStep
    split <;> simp
  unfold step at h
  cases mode with
  | code w => exact ⟨w, rfl⟩
  | lineComment =>
    rw [if_neg (hne rfl)] at h
    exact absurd h (by simp)
  | blockOpen => exact absurd h (by simp)
  | blockComment =>
    simp only at h
    split at h <;> exact absurd h (by simp)
  | blockClose => exact absurd h (by simp)
  | quoted q escapes =>
    have hq : c ≠ q := by
      rcases hfits with rfl | rfl <;> exact hne rfl
    simp only [if_neg hq] at h
    split at h <;> exact absurd h hliteral
  | escaped q => exact absurd h hliteral
  | rawOpen left hashes =>
    obtain ⟨later, hlater⟩ := hfits
    cases left with
    | zero => exact absurd (List.cons.inj hlater).1 (hne rfl)
    | succ left => exact absurd (List.cons.inj hlater).1 (hne rfl)
  | raw hashes =>
    have hquote : c ≠ '"' := hne rfl
    simp only [hquote, decide_false, Bool.false_and, Bool.false_eq_true, if_false] at h
    exact absurd h (by simp)
  | rawClose left =>
    obtain ⟨later, hlater⟩ := hfits
    exact absurd (List.cons.inj hlater).1 (hne rfl)
  | character ahead =>
    cases ahead with
    | zero =>
      simp only [if_neg (hne (show isStatementEnd '\'' = false from rfl))] at h
      exact absurd h (by simp)
    | succ n => exact absurd h (by simp)

/-- Behind a first part and the end of a statement in code, the rest is masked on its own. -/
theorem mask_behind (hc : isStatementEnd c = true)
    (h : modeBehind lang (.code .fresh) t (c :: x) = .code w) :
    mask lang (t ++ c :: x) = shownBefore lang (.code .fresh) t (c :: x) ++ c :: mask lang x := by
  have hstep : maskFrom lang (.code w) (c :: x) = c :: mask lang x :=
    maskFrom_cons_shown (.code .fresh) (codeStep_statementEnd hc w x)
  rw [mask, glyphs, glyphsFrom_behind, h, showGlyphs_append, ← hstep]
  rfl

/-- A text that ends as a statement does, in code, is masked before another text as it is masked
alone: before the text that it ends in code before, and before any text without single quotes. -/
theorem mask_append_of_code (hc : isStatementEnd c = true)
    (h : modeBehind lang (.code .fresh) t (c :: x) = .code w) (hy : y = x ∨ '\'' ∉ y) :
    mask lang (t ++ [c] ++ y) = mask lang (t ++ [c]) ++ mask lang y := by
  have hshown {z : List Char} (hz : z = x ∨ '\'' ∉ z) : mask lang (t ++ c :: z) =
      shownBefore lang (.code .fresh) t (c :: x) ++ c :: mask lang z := by
    rcases hz with rfl | hz
    · exact mask_behind hc h
    · obtain ⟨hmode, hglyphs⟩ := modeBehind_congr (not_mem_lookaheads hc) hz h
      rw [mask_behind hc hmode, shownBefore, hglyphs]
      rfl
  have halone := hshown (z := []) (.inr (by simp))
  rw [List.append_assoc, List.singleton_append, hshown hy, halone, List.append_assoc]
  rfl

/-! ## Seeing the end of a statement -/

/-- A glyph that shows the end of a statement last shows nothing else, and is not hidden. -/
theorem code_of_getLast? {g : Glyph} {d : Char} (hd : isStatementEnd d = true)
    (h : g.code.getLast? = some d) : g.char = d ∧ g.code = [d] ∧ g.mark ≠ .hidden := by
  obtain ⟨before, hcode⟩ := List.getLast?_eq_some_iff.1 h
  have hspace : d ≠ ' ' := by
    rintro rfl
    exact Bool.false_ne_true hd
  have hnarrow : d.utf8Size = 1 := by
    rcases isStatementEnd_iff.1 hd with rfl | rfl <;> rfl
  obtain ⟨rfl, -, hchar⟩ := Glyph.code_eq_singleton hcode (fun _ => hnarrow) hspace
  refine ⟨hchar, hcode, fun hhidden => ?_⟩
  have hblank : g.code = Glyph.blank d := by
    rw [Glyph.code, hhidden, hchar]
  rw [hblank] at hcode
  rcases isStatementEnd_iff.1 hd with rfl | rfl <;> exact absurd hcode (by decide)

theorem glyphsBefore_concat (mode : ScanMode) (t : List Char) (c : Char) (rest : List Char) :
    glyphsBefore lang mode (t ++ [c]) rest = glyphsBefore lang mode t (c :: rest) ++
      [⟨c, (step lang (modeBehind lang mode t (c :: rest)) c rest).1⟩] := by
  rw [glyphsBefore_append]
  rfl

theorem code_of_getLast?_showGlyphs {gs : List Glyph} {g : Glyph} {d : Char}
    (hd : isStatementEnd d = true) (h : (showGlyphs (gs ++ [g])).getLast? = some d) :
    g.char = d ∧ g.code = [d] ∧ g.mark ≠ .hidden := by
  refine code_of_getLast? hd ?_
  have hlast : (showGlyphs (gs ++ [g])).getLast? = g.code.getLast? := by
    rw [showGlyphs_append, showGlyphs_cons, show showGlyphs [] = [] from rfl, List.append_nil,
      List.getLast?_append_of_ne_nil _ (code_ne_nil g)]
  rw [← hlast, h]

/-- A text that shows the end of a statement last ends with it, and tears no character. -/
theorem concat_of_shown_last {d : Char} (hd : isStatementEnd d = true)
    (hlast : (mask lang t).getLast? = some d) :
    (∃ t₀, t = t₀ ++ [d]) ∧ Text.byteLength (mask lang t) = Text.byteLength t := by
  rcases List.eq_nil_or_concat t with rfl | ⟨t₀, c, rfl⟩
  · exact absurd hlast (by simp [mask, glyphs, glyphsFrom, showGlyphs])
  rw [List.concat_eq_append] at hlast ⊢
  have halone : mask lang (t₀ ++ [c]) = showGlyphs (glyphsBefore lang (.code .fresh) t₀ [c] ++
      [⟨c, (step lang (modeBehind lang (.code .fresh) t₀ [c]) c []).1⟩]) := by
    rw [mask, glyphs, glyphsFrom_behind]
    rfl
  obtain ⟨rfl, hcode, -⟩ := code_of_getLast?_showGlyphs hd (halone ▸ hlast)
  have hbefore : Text.byteLength (shownBefore lang (.code .fresh) t₀ [c]) = Text.byteLength t₀ :=
    byteLength_shownBefore (List.cons_ne_nil c [])
  refine ⟨⟨t₀, rfl⟩, ?_⟩
  rw [halone, showGlyphs_append, showGlyphs_cons, hcode, Text.byteLength_append,
    Text.byteLength_append t₀]
  exact congrArg (· + Text.byteLength [c]) hbefore

/-- A text that shows the end of a statement last, alone and before more text, ends in code. -/
theorem code_of_shown_last {rest behind : List Char} {d : Char} (hrest : rest ≠ [])
    (hd : isStatementEnd d = true) (hlast : (mask lang t).getLast? = some d)
    (h : mask lang (t ++ rest) = mask lang t ++ behind) :
    ∃ t₀ w, t = t₀ ++ [d] ∧ modeBehind lang (.code .fresh) t₀ (d :: rest) = .code w := by
  obtain ⟨⟨t₀, rfl⟩, hlen⟩ := concat_of_shown_last hd hlast
  have hshown : shownBefore lang (.code .fresh) (t₀ ++ [d]) rest = mask lang (t₀ ++ [d]) := by
    rw [mask, glyphs, glyphsFrom_behind, showGlyphs_append] at h
    have htake := congrArg (Text.takeBytes (Text.byteLength (t₀ ++ [d]))) h
    rw [← hlen, Text.takeBytes_append, hlen, ← byteLength_shownBefore hrest] at htake
    exact (Text.takeBytes_append _ _).symm.trans htake
  rw [shownBefore, glyphsBefore_concat] at hshown
  obtain ⟨-, -, hmark⟩ := code_of_getLast?_showGlyphs hd (hshown ▸ hlast)
  have hfits : Fits (modeBehind lang (.code .fresh) t₀ (d :: rest)) (d :: rest) :=
    fits_modeBehind trivial
  have hstep : (step lang (modeBehind lang (.code .fresh) t₀ (d :: rest)) d rest).1 = .shown := by
    cases hm : (step lang (modeBehind lang (.code .fresh) t₀ (d :: rest)) d rest).1 with
    | shown => rfl
    | hidden => exact absurd hm hmark
    | torn => exact absurd hm (mark_step_ne_torn lang _ d hrest)
  obtain ⟨w, hw⟩ := code_of_step_shown hd hfits hstep
  exact ⟨t₀, w, rfl, hw⟩

/-- Such a text is masked before another one, and before any text without single quotes, as it is
masked alone. -/
theorem mask_append_of_shown_last {rest behind : List Char} {d : Char} (hrest : rest ≠ [])
    (hd : isStatementEnd d = true) (hlast : (mask lang t).getLast? = some d)
    (h : mask lang (t ++ rest) = mask lang t ++ behind) (hy : y = rest ∨ '\'' ∉ y) :
    mask lang (t ++ y) = mask lang t ++ mask lang y := by
  obtain ⟨t₀, w, rfl, hw⟩ := code_of_shown_last hrest hd hlast h
  exact mask_append_of_code hd hw hy

end RpcBindings.Masked
