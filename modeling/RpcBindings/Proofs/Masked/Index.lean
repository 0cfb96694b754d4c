import Mathlib.Data.List.Forall2
import RpcBindings.Proofs.Masked.Boundary

/-!
Indices of a masked copy are indices of its source.

Masking keeps or blanks one character after the other. Only the last character of a text that ends
inside a literal is treated otherwise: its last byte is kept, which is no text when the character has
more than one. Main statement: every other masked copy is its source with some bytes blanked where they
stand, whole characters at a time (`mask_keeps_indices`).
-/

namespace RpcBindings

namespace Glyph

/-- What masking leaves of the bytes of a character, in their places. -/
def bytesInPlace (g : Glyph) : List UInt8 :=
  let bs := String.utf8EncodeChar g.char
  match g.mark with
  | .shown => bs
  | .hidden => bs.map blankByte
  | .torn => bs.dropLast.map blankByte ++ bs.getLast?.toList

/-- A character of which more than the last byte would have to be kept. -/
def Splits (g : Glyph) : Prop :=
  g.mark = .torn ∧ g.char.utf8Size ≠ 1

theorem bytes_replicate_space (n : Nat) :
    Text.bytes (List.replicate n ' ') = List.replicate n ' '.toUInt8 := by
  induction n with
  | zero => rfl
  | succ n ih =>
    rw [List.replicate_succ, List.replicate_succ, Text.bytes_cons_of_narrow (by decide), ih]

/-- No byte of another character is a line feed. -/
theorem ne_newline_of_mem {c : Char} (hc : c ≠ '\n') {b : UInt8}
    (hb : b ∈ String.utf8EncodeChar c) : b ≠ '\n'.toUInt8 := by
  rintro rfl
  by_cases hsize : c.utf8Size = 1
  · rw [Text.utf8EncodeChar_of_narrow hsize, List.mem_singleton] at hb
    exact hc (Text.eq_of_toUInt8_eq hsize (by decide) hb.symm)
  · exact absurd (Text.le_of_mem_wide hsize hb) (by decide)

/-- A hidden character shows its bytes blanked in place. -/
theorem bytes_blank (c : Char) :
    Text.bytes (blank c) = (String.utf8EncodeChar c).map blankByte := by
  unfold blank
  split
  · rename_i hc
    subst hc
    decide
  · rename_i hc
    have hblank : (String.utf8EncodeChar c).map blankByte =
        (String.utf8EncodeChar c).map fun _ => ' '.toUInt8 :=
      List.map_congr_left fun b hb => if_neg (ne_newline_of_mem hc hb)
    rw [bytes_replicate_space, hblank, List.map_const', String.length_utf8EncodeChar]

/-- A character that does not split shows what masking leaves in place. -/
theorem bytes_code {g : Glyph} (h : ¬g.Splits) : Text.bytes g.code = g.bytesInPlace := by
  unfold code bytesInPlace
  cases hm : g.mark with
  | shown => exact List.append_nil _
  | hidden => exact bytes_blank g.char
  | torn =>
    have hsize : g.char.utf8Size = 1 := Decidable.byContradiction fun hne => h ⟨hm, hne⟩
    have hremnant : remnant g.char = [g.char] := if_pos hsize
    simp only [hremnant, Text.bytes_cons, Text.bytes_nil, Text.utf8EncodeChar_of_narrow hsize]
    rfl

/-- Such a character is kept as a whole or blanked as a whole. -/
theorem code_eq_or {g : Glyph} (h : ¬g.Splits) :
    g.code = [g.char] ∨ g.char ≠ '\n' ∧ g.code = List.replicate g.char.utf8Size ' ' := by
  unfold code
  cases hm : g.mark with
  | shown => exact .inl rfl
  | hidden =>
    simp only [blank]
    split
    · rename_i hc
      exact .inl (by rw [hc])
    · rename_i hc
      exact .inr ⟨hc, rfl⟩
  | torn =>
    have hsize : g.char.utf8Size = 1 := Decidable.byContradiction fun hne => h ⟨hm, hne⟩
    exact .inl (if_pos hsize)

end Glyph

namespace Masked

/-! ## Where a character can split -/

/-- The scan stands in a literal that a quote has to end. -/
def inQuotes : ScanMode → Bool
  | .quoted .. | .escaped _ => true
  | _ => false

/-- The text ends inside such a literal, with a character of several bytes. -/
def EndsInWideQuotes (lang : SourceLang) (source : List Char) : Prop :=
  inQuotes (endMode lang source) = true ∧ ∃ c, source.getLast? = some c ∧ c.utf8Size ≠ 1

instance (lang : SourceLang) (source : List Char) : Decidable (EndsInWideQuotes lang source) :=
  match h : source.getLast? with
  | none => isFalse fun hends => by
      obtain ⟨-, c, hc, -⟩ := hends
      exact absurd (h.symm.trans hc) (by simp)
  | some c =>
    decidable_of_iff (inQuotes (endMode lang source) = true ∧ c.utf8Size ≠ 1)
      ⟨fun ⟨hmode, hsize⟩ => ⟨hmode, c, h, hsize⟩, fun ⟨hmode, d, hd, hsize⟩ =>
        ⟨hmode, Option.some.inj (h.symm.trans hd) ▸ hsize⟩⟩

/-- Where a character is torn the scan goes on inside a literal. -/
theorem inQuotes_of_torn {lang : SourceLang} {mode : ScanMode} {c : Char} {rest : List Char}
    (h : (step lang mode c rest).1 = .torn) : inQuotes (step lang mode c rest).2 = true := by
  unfold step at h ⊢
  cases mode with
  | code w =>
    simp only at h
    unfold codeStep at h
    extract_lets plain at h
    repeat' split at h
    all_goals exact absurd h (by simp [plain])
  | quoted q escapes =>
    simp only at h ⊢
    split at h
    · rename_i hescape
      rw [if_pos hescape]
      rfl
    · rename_i hescape
      split at h
      · exact absurd h (by simp)
      · rename_i hq
        rw [if_neg hescape, if_neg hq]
        rfl
  | escaped q => rfl
  | lineComment => simp only at h; split at h <;> exact absurd h (by simp)
  | blockOpen => exact absurd h (by simp)
  | blockComment => simp only at h; split at h <;> exact absurd h (by simp)
  | blockClose => exact absurd h (by simp)
  | rawOpen left hashes => exact absurd h (by simp)
  | raw hashes => simp only at h; split at h <;> exact absurd h (by simp)
  | rawClose left => exact absurd h (by simp)
  | character ahead =>
    cases ahead with
    | zero => simp only at h; split at h <;> exact absurd h (by simp)
    | succ n => exact absurd h (by simp)

/-- A torn character is the last one of a text that ends inside a literal. -/
theorem ends_of_mem_glyphsFrom {lang : SourceLang} {mode : ScanMode} {cs : List Char} {g : Glyph}
    (hg : g ∈ glyphsFrom lang mode cs) (htorn : g.mark = .torn) :
    inQuotes (endModeFrom lang mode cs) = true ∧ cs.getLast? = some g.char := by
  induction cs generalizing mode with
  | nil => exact absurd hg List.not_mem_nil
  | cons c cs ih =>
    rw [glyphsFrom, List.mem_cons] at hg
    rcases hg with rfl | hg
    · have hnil : cs = [] := Decidable.byContradiction fun hne =>
        mark_step_ne_torn lang mode c hne htorn
      subst hnil
      exact ⟨inQuotes_of_torn htorn, rfl⟩
    · obtain ⟨hmode, hlast⟩ := ih hg
      have hne : cs ≠ [] := by
        rintro rfl
        exact absurd hlast (by simp)
      exact ⟨hmode, by rw [List.getLast?_cons_of_ne_nil hne, hlast]⟩

theorem not_splits_of_mem {lang : SourceLang} {source : List Char}
    (h : ¬EndsInWideQuotes lang source) {g : Glyph} (hg : g ∈ glyphs lang source) : ¬g.Splits :=
  fun ⟨htorn, hsize⟩ =>
    let ⟨hmode, hlast⟩ := ends_of_mem_glyphsFrom hg htorn
    h ⟨hmode, g.char, hlast, hsize⟩

theorem unsplit_glyphs {lang : SourceLang} {source : List Char}
    (h : ¬EndsInWideQuotes lang source) : Unsplit (glyphs lang source) :=
  fun _ hg htorn => Decidable.byContradiction fun hsize => not_splits_of_mem h hg ⟨htorn, hsize⟩

/-- A masked copy of the source's length tears no character of several bytes. -/
theorem unsplit_of_byteLength_eq {lang : SourceLang} {source : List Char}
    (h : Text.byteLength (mask lang source) = Text.byteLength source) :
    Unsplit (glyphs lang source) := by
  intro g hg htorn
  refine Decidable.byContradiction fun hsize => ?_
  obtain ⟨before, after, hgs⟩ := List.append_of_mem hg
  have hafter : after = [] := by
    cases after with
    | nil => rfl
    | cons g' after =>
      have hsplit : glyphs lang source = (before ++ [g]) ++ g' :: after := by rw [hgs]; simp
      exact absurd htorn (whole_of_glyphsFrom_eq hsplit g (by simp))
  subst hafter
  have hbefore := byteLength_showGlyphs (whole_of_glyphsFrom_eq hgs)
  have hchars := congrArg Text.byteLength (map_char_glyphs lang source)
  have hremnant : g.code = List.replicate (g.char.utf8Size - 1) ' ' ++ ['\ufffd'] := by
    unfold Glyph.code
    rw [htorn]
    exact if_neg hsize
  have hlen : Text.byteLength g.code = g.char.utf8Size - 1 + 3 := by
    rw [hremnant, Text.byteLength_append, ← Text.length_bytes, Glyph.bytes_replicate_space,
      List.length_replicate]
    rfl
  have hpos := Char.utf8Size_pos g.char
  rw [hgs, List.map_append, Text.byteLength_append] at hchars
  rw [mask, hgs, showGlyphs_append, Text.byteLength_append, hbefore, showGlyphs_cons,
    Text.byteLength_append, hlen] at h
  have hnil : Text.byteLength (showGlyphs []) = 0 := rfl
  have hone : Text.byteLength ([g].map (·.char)) = g.char.utf8Size := by simp
  omega

/-! ## Bytes in place -/

theorem bytes_showGlyphs {gs : List Glyph} (h : ∀ g ∈ gs, ¬g.Splits) :
    Text.bytes (showGlyphs gs) = gs.flatMap Glyph.bytesInPlace := by
  induction gs with
  | nil => rfl
  | cons g gs ih =>
    rw [showGlyphs_cons, Text.bytes_append, Glyph.bytes_code (h g List.mem_cons_self),
      ih fun x hx => h x (List.mem_cons_of_mem g hx), List.flatMap_cons]

/-- A byte of the masked copy is the byte of the source, or blanks one that is no line feed. -/
def KeptOrBlanked (b b' : UInt8) : Prop :=
  b' = b ∨ b' = ' '.toUInt8 ∧ b ≠ '\n'.toUInt8

theorem keptOrBlanked_char {g : Glyph} (h : ¬g.Splits) :
    List.Forall₂ KeptOrBlanked (String.utf8EncodeChar g.char) (Text.bytes g.code) := by
  rcases Glyph.code_eq_or h with hcode | ⟨hline, hcode⟩
  · rw [hcode, Text.bytes_cons, Text.bytes_nil, List.append_nil]
    exact List.forall₂_same.2 fun b _ => .inl rfl
  · rw [hcode, Glyph.bytes_replicate_space, List.forall₂_iff_zip]
    refine ⟨by rw [String.length_utf8EncodeChar, List.length_replicate], fun {b b'} hmem => ?_⟩
    obtain ⟨hb, hb'⟩ := List.of_mem_zip hmem
    exact .inr ⟨List.eq_of_mem_replicate hb', Glyph.ne_newline_of_mem hline hb⟩

theorem keptOrBlanked_showGlyphs {gs : List Glyph} (h : ∀ g ∈ gs, ¬g.Splits) :
    List.Forall₂ KeptOrBlanked (Text.bytes (gs.map (·.char))) (Text.bytes (showGlyphs gs)) := by
  induction gs with
  | nil => exact .nil
  | cons g gs ih =>
    rw [showGlyphs_cons, Text.bytes_append, List.map_cons, Text.bytes_cons]
    exact List.rel_append (keptOrBlanked_char (h g List.mem_cons_self))
      (ih fun x hx => h x (List.mem_cons_of_mem g hx))

/-- The bytes of a character are kept or blanked together. -/
theorem bytes_char_eq {lang : SourceLang} {source a rest : List Char} {c : Char}
    (h : ¬EndsInWideQuotes lang source) (hsource : source = a ++ c :: rest) :
    ((ofSource lang source).bytes.drop (Text.byteLength a)).take c.utf8Size =
        String.utf8EncodeChar c ∨
      ((ofSource lang source).bytes.drop (Text.byteLength a)).take c.utf8Size =
        List.replicate c.utf8Size ' '.toUInt8 := by
  have hchars := (map_char_glyphs lang source).trans hsource
  obtain ⟨before, later, hgs, rfl, hlater⟩ := List.map_eq_append_iff.1 hchars
  obtain ⟨g, after, rfl, rfl, -⟩ := List.map_eq_cons_iff.1 hlater
  have hg : ¬g.Splits := not_splits_of_mem h (by rw [hgs]; simp)
  have hlen : Text.byteLength (before.map (·.char)) = Text.byteLength (showGlyphs before) :=
    (byteLength_showGlyphs (whole_of_glyphsFrom_eq hgs)).symm
  have hsize : (Text.bytes g.code).length = g.char.utf8Size := by
    rw [Text.length_bytes]
    rcases Glyph.code_eq_or hg with hcode | ⟨-, hcode⟩
    · rw [hcode]
      rfl
    · rw [hcode, ← Text.length_bytes, Glyph.bytes_replicate_space, List.length_replicate]
  have hhere : ((ofSource lang source).bytes.drop (Text.byteLength (before.map (·.char)))).take
      g.char.utf8Size = Text.bytes g.code := by
    show ((Text.bytes (mask lang source)).drop _).take _ = _
    rw [mask, hgs, showGlyphs_append, hlen, Text.drop_bytes_append, showGlyphs_cons,
      Text.bytes_append, ← hsize, List.take_left]
  rw [hhere]
  rcases Glyph.code_eq_or hg with hcode | ⟨-, hcode⟩
  · exact .inl (by rw [hcode, Text.bytes_cons, Text.bytes_nil, List.append_nil])
  · exact .inr (by rw [hcode, Glyph.bytes_replicate_space])

/-- The masked copy of a source has the indices of the source. -/
structure KeepsIndices (lang : SourceLang) (source : List Char) : Prop where
  size_eq : (ofSource lang source).size = (ofSource lang source).sourceSize
  /-- Every byte is the one of the source, or a space for one that is no line feed. -/
  byte : ∀ (i : Nat) (b : UInt8), (ofSource lang source).bytes[i]? = some b →
    (Text.bytes source)[i]? = some b ∨
      b = ' '.toUInt8 ∧ ∃ b', (Text.bytes source)[i]? = some b' ∧ b' ≠ '\n'.toUInt8
  lineFeed : ∀ i : Nat, (Text.bytes source)[i]? = some '\n'.toUInt8 →
    (ofSource lang source).bytes[i]? = some '\n'.toUInt8
  /-- The bytes of a character are kept or blanked together. -/
  character : ∀ (a : List Char) (c : Char) (rest : List Char), source = a ++ c :: rest →
    ((ofSource lang source).bytes.drop (Text.byteLength a)).take c.utf8Size =
        String.utf8EncodeChar c ∨
      ((ofSource lang source).bytes.drop (Text.byteLength a)).take c.utf8Size =
        List.replicate c.utf8Size ' '.toUInt8
  /-- What blanking in place leaves is the masked copy as it stands. -/
  inPlace : (glyphs lang source).flatMap Glyph.bytesInPlace = (ofSource lang source).bytes

/-- Unless a source ends inside a literal with a character of several bytes, indices into its masked
copy are indices into the source. -/
theorem mask_keeps_indices (lang : SourceLang) (source : List Char)
    (h : ¬EndsInWideQuotes lang source) : KeepsIndices lang source := by
  have hglyphs : ∀ g ∈ glyphs lang source, ¬g.Splits := fun g hg => not_splits_of_mem h hg
  have hbytes : List.Forall₂ KeptOrBlanked (Text.bytes source) (ofSource lang source).bytes := by
    have := keptOrBlanked_showGlyphs hglyphs
    rwa [map_char_glyphs] at this
  have hlen : (Text.bytes source).length = (ofSource lang source).bytes.length := hbytes.length_eq
  have hindex (i : Nat) {b b' : UInt8} (hb : (Text.bytes source)[i]? = some b)
      (hb' : (ofSource lang source).bytes[i]? = some b') : KeptOrBlanked b b' := by
    obtain ⟨hi, rfl⟩ := List.getElem?_eq_some_iff.1 hb
    obtain ⟨hi', rfl⟩ := List.getElem?_eq_some_iff.1 hb'
    exact hbytes.get hi hi'
  refine ⟨?size_eq, fun i b hb => ?byte, fun i hi => ?lineFeed, fun a c rest => bytes_char_eq h,
    (bytes_showGlyphs hglyphs).symm⟩
  case size_eq =>
    unfold size sourceSize
    rw [← hlen, Text.length_bytes]
    rfl
  case byte =>
    obtain ⟨hlt, -⟩ := List.getElem?_eq_some_iff.1 hb
    have hsource := List.getElem?_eq_getElem (hlen ▸ hlt : i < (Text.bytes source).length)
    rcases hindex i hsource hb with rfl | ⟨rfl, hline⟩
    · exact .inl hsource
    · exact .inr ⟨rfl, _, hsource, hline⟩
  case lineFeed =>
    obtain ⟨hlt, -⟩ := List.getElem?_eq_some_iff.1 hi
    have hmasked := List.getElem?_eq_getElem (hlen ▸ hlt : i < (ofSource lang source).bytes.length)
    rcases hindex i hi hmasked with heq | ⟨-, hline⟩
    · rw [hmasked, heq]
    · exact absurd rfl hline

/-- A comment with wide characters, an escaped one in a literal, and a literal that does not end. -/
theorem mask_keeps_indices_openLiteral :
    ¬EndsInWideQuotes .go "x // é\n\"\\é€\" \"ü!".toList ∧
      mask .go "x // é\n\"\\é€\" \"ü!".toList = "x      \n\"      \" \"  !".toList ∧
      KeepsIndices .go "x // é\n\"\\é€\" \"ü!".toList := by
  have h : ¬EndsInWideQuotes .go "x // é\n\"\\é€\" \"ü!".toList := by decide +kernel
  exact ⟨h, by decide +kernel, mask_keeps_indices .go _ h⟩

end Masked

end RpcBindings
