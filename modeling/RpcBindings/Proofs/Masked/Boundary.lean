import Mathlib.Data.List.Chain
import RpcBindings.Masked.Basic
import RpcBindings.Proofs.Text.Bytes

/-!
Offsets in a source and in its masked copy.

Masking keeps the number of bytes of every character that is not torn, and only the last character
of a text can be torn. So an offset at which the masked copy shows a byte of code falls between the
same two characters of the source (`cutsAt_of_byte`), and a search may cut the source there.
-/

namespace RpcBindings

namespace Glyph

/-- A character that is not torn keeps its number of bytes. -/
theorem byteLength_code {g : Glyph} (h : g.mark ≠ .torn) :
    Text.byteLength g.code = g.char.utf8Size := by
  unfold code
  cases hm : g.mark with
  | shown => simp
  | hidden => exact byteLength_blank g.char
  | torn => exact absurd hm h

/-- A character other than a space in the masked text stands for itself, unless it is the
replacement of a torn one. -/
theorem code_eq_singleton {g : Glyph} {a b : List Char} {c : Char} (h : g.code = a ++ c :: b)
    (hc : g.mark = .torn → c.utf8Size = 1) (hspace : c ≠ ' ') :
    a = [] ∧ b = [] ∧ g.char = c := by
  have alone {d : Char} (h : [d] = a ++ c :: b) : a = [] ∧ b = [] ∧ d = c := by
    cases a with
    | nil => simp at h; exact ⟨rfl, h.2.symm ▸ rfl, h.1⟩
    | cons e a => simp at h
  have notSpaces {n : Nat} : c ∉ List.replicate n ' ' := fun hmem =>
    hspace (List.eq_of_mem_replicate hmem)
  have hmem : c ∈ g.code := h ▸ by simp
  unfold code at h hmem
  cases hm : g.mark with
  | shown =>
    simp only [hm] at h
    exact alone h
  | hidden =>
    simp only [hm, blank] at h hmem
    split at h
    · rename_i hn
      exact hn ▸ alone h
    · rename_i hn
      rw [if_neg hn] at hmem
      exact absurd hmem notSpaces
  | torn =>
    simp only [hm, remnant] at h hmem
    split at h
    · exact alone h
    · rename_i hn
      rw [if_neg hn, List.mem_append] at hmem
      rcases hmem with hmem | hmem
      · exact absurd hmem notSpaces
      · rw [List.mem_singleton] at hmem
        subst hmem
        exact absurd (hc hm) (by decide)

/-- A torn character of one byte stands for itself. -/
theorem code_of_torn {g : Glyph} (h : g.mark = .torn) (hnarrow : g.char.utf8Size = 1) :
    g.code = [g.char] := by
  unfold code
  rw [h]
  exact if_pos hnarrow

end Glyph

namespace Masked

/-! ## Whole texts -/

/-- No character of the glyphs is torn. -/
def Whole (gs : List Glyph) : Prop :=
  ∀ g ∈ gs, g.mark ≠ .torn

/-- No character of several bytes is torn. -/
def Unsplit (gs : List Glyph) : Prop :=
  ∀ g ∈ gs, g.mark = .torn → g.char.utf8Size = 1

theorem Whole.unsplit {gs : List Glyph} (h : Whole gs) : Unsplit gs :=
  fun g hg htorn => absurd htorn (h g hg)

/-- Only the last character of a text can be torn. -/
theorem mark_step_ne_torn (lang : SourceLang) (mode : ScanMode) (c : Char) {rest : List Char}
    (h : rest ≠ []) : (step lang mode c rest).1 ≠ .torn := by
  have literal (next : ScanMode) : (literalStep rest next).1 ≠ .torn := by
    have : rest.isEmpty = false := by simpa using h
    simp [literalStep, this]
  unfold step
  cases mode with
  | code w =>
    simp only
    unfold codeStep
    extract_lets plain
    repeat' split
    all_goals simp [plain]
  | quoted q escapes =>
    simp only
    repeat' split
    all_goals first | exact literal _ | simp
  | escaped q => exact literal _
  | lineComment => simp only; split <;> simp
  | blockOpen => simp
  | blockComment => simp only; split <;> simp
  | blockClose => simp
  | rawOpen left hashes => simp
  | raw hashes => simp only; split <;> simp
  | rawClose left => simp
  | character ahead =>
    cases ahead with
    | zero => simp only; split <;> simp
    | succ n => simp

theorem whole_of_glyphsFrom_eq {lang : SourceLang} {mode : ScanMode} {cs : List Char}
    {gs : List Glyph} {g : Glyph} {rest : List Glyph}
    (h : glyphsFrom lang mode cs = gs ++ g :: rest) : Whole gs := by
  induction cs generalizing mode gs with
  | nil => simp [glyphsFrom] at h
  | cons c cs ih =>
    cases gs with
    | nil => intro x hx; simp at hx
    | cons g' gs =>
      rw [glyphsFrom, List.cons_append, List.cons.injEq] at h
      obtain ⟨rfl, h⟩ := h
      intro x hx
      rcases List.mem_cons.1 hx with rfl | hx
      · refine mark_step_ne_torn lang mode c ?_
        rintro rfl
        simp [glyphsFrom] at h
      · exact ih h x hx

theorem showGlyphs_cons (g : Glyph) (gs : List Glyph) :
    showGlyphs (g :: gs) = g.code ++ showGlyphs gs := rfl

theorem showGlyphs_append (a b : List Glyph) :
    showGlyphs (a ++ b) = showGlyphs a ++ showGlyphs b := by
  simp [showGlyphs]

/-- The masked copy of a text has as many bytes as the text, unless it tears several. -/
theorem Unsplit.byteLength_showGlyphs {gs : List Glyph} (h : Unsplit gs) :
    Text.byteLength (showGlyphs gs) = Text.byteLength (gs.map (·.char)) := by
  induction gs with
  | nil => rfl
  | cons g gs ih =>
    have hcode : Text.byteLength g.code = g.char.utf8Size := by
      by_cases htorn : g.mark = .torn
      · rw [Glyph.code_of_torn htorn (h g List.mem_cons_self htorn)]
        rfl
      · exact Glyph.byteLength_code htorn
    rw [showGlyphs_cons, Text.byteLength_append, List.map_cons, Text.byteLength_cons, hcode,
      ih fun x hx => h x (List.mem_cons_of_mem _ hx)]

theorem byteLength_showGlyphs {gs : List Glyph} (h : Whole gs) :
    Text.byteLength (showGlyphs gs) = Text.byteLength (gs.map (·.char)) :=
  h.unsplit.byteLength_showGlyphs

/-! ## Shared boundaries -/

/-- The offset falls between two characters of the source and of its masked copy. -/
def CutsAt (m : Masked) (i : Nat) : Prop :=
  (∃ a b, m.source = a ++ b ∧ Text.byteLength a = i) ∧
    ∃ a b, m.code = a ++ b ∧ Text.byteLength a = i

instance (m : Masked) (i : Nat) : Decidable (m.CutsAt i) :=
  inferInstanceAs (Decidable (Text.IsBoundary m.source i ∧ Text.IsBoundary m.code i))

theorem cutsAt_zero (m : Masked) : m.CutsAt 0 :=
  ⟨⟨[], m.source, rfl, rfl⟩, [], m.code, rfl, rfl⟩

theorem CutsAt.le_sourceSize {m : Masked} {i : Nat} (h : m.CutsAt i) : i ≤ m.sourceSize := by
  obtain ⟨⟨a, b, hsource, rfl⟩, -⟩ := h
  unfold sourceSize
  rw [hsource, Text.byteLength_append]
  exact Nat.le_add_right _ _

/-- Where a list of glyphs shows a character other than a space, a glyph begins. -/
theorem exists_glyph_of_showGlyphs_eq {gs : List Glyph} {a b : List Char} {c : Char}
    (h : showGlyphs gs = a ++ c :: b) (hc : Unsplit gs ∨ c.utf8Size = 1) (hspace : c ≠ ' ') :
    ∃ before g after, gs = before ++ g :: after ∧ showGlyphs before = a ∧ g.code = [c] ∧
      g.char = c := by
  induction gs generalizing a with
  | nil => simp [showGlyphs] at h
  | cons g gs ih =>
    rw [showGlyphs_cons] at h
    have hlater : Unsplit gs ∨ c.utf8Size = 1 :=
      hc.imp (fun hunsplit x hx => hunsplit x (List.mem_cons_of_mem g hx)) id
    obtain ⟨mid, ha, hgs⟩ | ⟨mid, hg, hmid⟩ := List.append_eq_append_iff.1 h
    · obtain ⟨before, g', after, rfl, rfl, hcode, hchar⟩ := ih hgs hlater
      exact ⟨g :: before, g', after, rfl, by rw [showGlyphs_cons, ha], hcode, hchar⟩
    · cases mid with
      | nil =>
        -- the glyph ends where the character begins
        obtain ⟨before, g', after, rfl, hshow, hcode, hchar⟩ := ih (a := []) hmid.symm hlater
        refine ⟨g :: before, g', after, rfl, ?_, hcode, hchar⟩
        rw [showGlyphs_cons, hshow, hg, List.append_nil, List.append_nil]
      | cons d mid =>
        rw [List.cons_append, List.cons.injEq] at hmid
        obtain ⟨rfl, -⟩ := hmid
        have hnarrow (htorn : g.mark = .torn) : c.utf8Size = 1 := by
          refine hc.elim (fun hunsplit => ?_) id
          have hsize := hunsplit g List.mem_cons_self htorn
          have hmem : c ∈ g.code := by rw [hg]; simp
          rw [Glyph.code_of_torn htorn hsize] at hmem
          rw [List.mem_singleton.1 hmem, hsize]
        obtain ⟨rfl, rfl, hchar⟩ := Glyph.code_eq_singleton hg hnarrow hspace
        exact ⟨[], g, gs, rfl, rfl, hg, hchar⟩

/-- Before and after a character of code the source can be cut. -/
theorem cutsAt_of_code_eq {lang : SourceLang} {source a rest : List Char} {c : Char}
    (h : mask lang source = a ++ c :: rest) (hc : Unsplit (glyphs lang source) ∨ c.utf8Size = 1)
    (hspace : c ≠ ' ') : (ofSource lang source).CutsAt (Text.byteLength a) ∧
      (ofSource lang source).CutsAt (Text.byteLength a + c.utf8Size) := by
  obtain ⟨before, g, after, hgs, rfl, -, hchar⟩ := exists_glyph_of_showGlyphs_eq h hc hspace
  have hwhole : Whole before := whole_of_glyphsFrom_eq hgs
  have hsource : source = before.map (·.char) ++ c :: after.map (·.char) := by
    rw [← map_char_glyphs lang source, hgs, List.map_append, List.map_cons, hchar]
  have hlen := byteLength_showGlyphs hwhole
  refine ⟨⟨⟨_, _, hsource, hlen.symm⟩, _, _, h, rfl⟩,
    ⟨before.map (·.char) ++ [c], after.map (·.char), ?_, ?_⟩,
    showGlyphs before ++ [c], rest, ?_, ?_⟩
  · rw [List.append_assoc]
    exact hsource
  · rw [Text.byteLength_append, ← hlen, Text.byteLength_cons]
    rfl
  · rw [List.append_assoc]
    exact h
  · rw [Text.byteLength_append, Text.byteLength_cons]
    rfl

/-- Before and after a byte of code the source can be cut. -/
theorem cutsAt_of_byte {lang : SourceLang} {source : List Char} {i : Nat} {b : UInt8}
    (h : (ofSource lang source).bytes[i]? = some b) (hb : b < 0x80) (hspace : b ≠ 0x20) :
    (ofSource lang source).CutsAt i ∧ (ofSource lang source).CutsAt (i + 1) := by
  obtain ⟨a, c, rest, hcode, rfl, hc, rfl⟩ := Text.exists_split_of_ascii h hb
  have hc' : c ≠ ' ' := by rintro rfl; exact hspace rfl
  have := cutsAt_of_code_eq hcode (.inr hc) hc'
  rwa [hc] at this

/-- A text that tears no bytes apart has a masked copy of its own length. -/
theorem Unsplit.byteLength_mask {lang : SourceLang} {source : List Char}
    (h : Unsplit (glyphs lang source)) :
    Text.byteLength (mask lang source) = Text.byteLength source := by
  have := h.byteLength_showGlyphs
  rwa [map_char_glyphs] at this

/-- Behind a text that tears no bytes apart, and behind its masked copy, the source can be cut. -/
theorem Unsplit.cutsAt_size {lang : SourceLang} {source : List Char}
    (h : Unsplit (glyphs lang source)) :
    (ofSource lang source).CutsAt (ofSource lang source).size := by
  have hsize : (ofSource lang source).size = Text.byteLength (mask lang source) :=
    Text.length_bytes _
  rw [hsize]
  exact ⟨⟨source, [], (List.append_nil source).symm, h.byteLength_mask.symm⟩,
    mask lang source, [], (List.append_nil _).symm, rfl⟩

theorem cutsAt_size {lang : SourceLang} {source : List Char} (h : Whole (glyphs lang source)) :
    (ofSource lang source).CutsAt (ofSource lang source).size :=
  h.unsplit.cutsAt_size

/-! ## Segments -/

variable {m : Masked}

/-- What is cut out in two steps is cut out in one. -/
theorem cut_eq_append {t : List Char} {i j k : Nat} (hi : Text.IsBoundary t i)
    (hj : Text.IsBoundary t j) (hk : Text.IsBoundary t k) (hij : i ≤ j) (hjk : j ≤ k) :
    Text.cut i k t = Text.cut i j t ++ Text.cut j k t := by
  obtain ⟨a, a', ha, rfl⟩ := hi
  obtain ⟨b, b', hb, rfl⟩ := hj
  obtain ⟨c, c', hc, rfl⟩ := hk
  obtain ⟨x, rfl, -, hx⟩ := Text.exists_split_of_le ha hb hij
  obtain ⟨y, rfl, -, hy⟩ := Text.exists_split_of_le hb hc hjk
  obtain ⟨z, hz, -, hxz⟩ := Text.exists_split_of_le ha hc (Nat.le_trans hij hjk)
  rw [List.append_assoc] at hz
  rw [hx, hy, hxz, List.append_cancel_left hz]

theorem slice_append {i j k : Nat} (hi : m.CutsAt i) (hj : m.CutsAt j) (hk : m.CutsAt k)
    (hij : i ≤ j) (hjk : j ≤ k) : m.slice i k = m.slice i j ++ m.slice j k :=
  cut_eq_append hi.1 hj.1 hk.1 hij hjk

theorem codeSlice_append {i j k : Nat} (hi : Text.IsBoundary m.code i)
    (hj : Text.IsBoundary m.code j) (hk : Text.IsBoundary m.code k) (hij : i ≤ j) (hjk : j ≤ k) :
    m.codeSlice i k = m.codeSlice i j ++ m.codeSlice j k :=
  cut_eq_append hi hj hk hij hjk

/-- The text between two shared boundaries is cut out. -/
theorem exists_cut? {i j : Nat} (hi : m.CutsAt i) (hj : m.CutsAt j) (hij : i ≤ j) :
    ∃ text, Text.cut? i j m.source = some text := by
  obtain ⟨⟨a, a', ha, rfl⟩, -⟩ := hi
  obtain ⟨⟨b, b', hb, rfl⟩, -⟩ := hj
  obtain ⟨mid, rfl, hsplit, -⟩ := Text.exists_split_of_le ha hb hij
  refine ⟨mid, ?_⟩
  unfold Text.cut?
  rw [if_pos hij, ha, Text.dropBytes?_append, Option.bind_some, hsplit, Text.byteLength_append,
    Nat.add_sub_cancel_left, Text.takeBytes?_append]

/-- Code between two shared boundaries can be cut anywhere. -/
theorem codeSlice_of_append {i k : Nat} {x y : List Char} (hi : m.CutsAt i) (hk : m.CutsAt k)
    (hik : i ≤ k) (h : m.codeSlice i k = x ++ y) :
    i + Text.byteLength x + Text.byteLength y = k ∧ m.codeSlice (i + Text.byteLength x) k = y ∧
      m.bytes.drop (i + Text.byteLength x) = Text.bytes y ++ m.bytes.drop k := by
  obtain ⟨-, a, a', ha, rfl⟩ := hi
  obtain ⟨-, b, b', hb, rfl⟩ := hk
  obtain ⟨mid, rfl, rfl, hmid⟩ := Text.exists_split_of_le ha hb hik
  obtain rfl : mid = x ++ y := hmid.symm.trans h
  have hcode : m.code = a ++ x ++ y ++ b' := by
    rw [ha]
    simp only [List.append_assoc]
  have hlen : Text.byteLength (a ++ (x ++ y)) =
      Text.byteLength a + Text.byteLength x + Text.byteLength y := by
    rw [Text.byteLength_append, Text.byteLength_append, Nat.add_assoc]
  refine ⟨hlen.symm, ?_, ?_⟩
  · have := Text.cut_append (a ++ x) y b'
    rw [← hcode, Text.byteLength_append] at this
    rw [hlen]
    exact this
  · rw [m.bytes_eq, hlen, ← Text.byteLength_append, ← Text.byteLength_append, hcode,
      Text.drop_bytes_append, List.append_assoc, Text.drop_bytes_append, Text.bytes_append]

/-- The texts between each of some offsets and the next one. -/
def segments (m : Masked) : List Nat → List (List Char)
  | i :: j :: rest => m.slice i j :: m.segments (j :: rest)
  | _ => []

/-- Shared boundaries in order split the text between the first and the last one. -/
theorem flatten_segments {i : Nat} {rest : List Nat} (hchain : (i :: rest).IsChain (· ≤ ·))
    (hcuts : ∀ k ∈ i :: rest, m.CutsAt k) :
    (m.segments (i :: rest)).flatten =
      m.slice i ((i :: rest).getLast (List.cons_ne_nil i rest)) := by
  induction rest generalizing i with
  | nil =>
    show [] = Text.cut i i m.source
    rw [Text.cut, Nat.sub_self, Text.takeBytes]
  | cons j rest ih =>
    obtain ⟨hij, hrest⟩ := List.isChain_cons_cons.1 hchain
    have hlast : j ≤ (j :: rest).getLast (List.cons_ne_nil j rest) := by
      rcases List.mem_cons.1 (List.getLast_mem (List.cons_ne_nil j rest)) with heq | hmem
      · exact Nat.le_of_eq heq.symm
      · exact List.rel_of_pairwise_cons (List.isChain_iff_pairwise.1 hrest) hmem
    have hcuts' : ∀ k ∈ j :: rest, m.CutsAt k := fun k hk => hcuts k (List.mem_cons_of_mem i hk)
    rw [segments, List.flatten_cons, ih hrest hcuts', List.getLast_cons (List.cons_ne_nil j rest)]
    exact (slice_append (hcuts i List.mem_cons_self) (hcuts' j List.mem_cons_self)
      (hcuts' _ (List.getLast_mem _)) hij hlast).symm

end Masked

end RpcBindings
