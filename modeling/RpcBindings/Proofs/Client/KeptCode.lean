import RpcBindings.Proofs.Client.BlockShape
import RpcBindings.Proofs.Client.Relaid

/-!
The code of kept statements.

What is kept of a text is masked as it was in the text when every error block is cut out in code
(`mask_without`): then the kept statements are lexically closed as the text is, and their delimiters are
those of the text without well-nested parts (`kept_closed`). A block that shares its first line with the
end of a comment begins with that line, inside the comment, and the comment is left open
(`comment_cut_open`).
-/

namespace RpcBindings

namespace Masked

/-- Neither a comment nor a literal is open behind the last line of the text, and no quote stands alone
in it. -/
def LexicallyClosed (t : List Char) : Prop :=
  settles (t ++ ['\n']) = true

instance (t : List Char) : Decidable (LexicallyClosed t) :=
  inferInstanceAs (Decidable (_ = _))

/-! ## Parts of a closed text -/

section Closed

variable {mode : ScanMode} {a rest b e : List Char} {w : WordState}

/-- Where a scan stands does not depend on the blanks behind the text. -/
theorem scanTo_append_blank (hgo : ofGo mode = true) (hb : Text.allBlank b = true)
    (he : Text.allBlank e = true) (h : settlesFrom mode (a ++ (rest ++ b)) = true) :
    scanTo mode a (rest ++ e) = scanTo mode a (rest ++ b) := by
  induction a generalizing mode with
  | nil => rfl
  | cons c a ih =>
    have hstep := step_append_blank (t := a ++ rest) hgo hb he (by
      rw [List.append_assoc]
      exact h)
    rw [List.append_assoc, List.append_assoc] at hstep
    rw [scanTo, scanTo, hstep]
    exact ih (ofGo_step hgo c _) (settlesFrom_step h)

theorem scanTo_newline (h : settles (a ++ (rest ++ ['\n'])) = true) :
    scanTo (.code .fresh) a (rest ++ ['\n']) = scanTo (.code .fresh) a rest := by
  have := scanTo_append_blank (e := []) rfl (by decide) rfl h
  rw [List.append_nil] at this
  exact this.symm

/-- What stands behind an offset in code settles. -/
theorem LexicallyClosed.drop {t : List Char} (h : LexicallyClosed t) (ht : t = a ++ rest)
    (hmode : scanTo (.code .fresh) a rest = .code w) : LexicallyClosed rest := by
  have h' : settles (a ++ (rest ++ ['\n'])) = true := by
    rw [← List.append_assoc, ← ht]
    exact h
  have := settlesFrom_scanTo h'
  rw [scanTo_newline h', hmode, settlesFrom_code_word w .fresh] at this
  exact this

/-- What stands between two offsets in code settles. -/
theorem LexicallyClosed.settles_slice {t : List Char} {i j : Nat} (h : LexicallyClosed t)
    (hi : (ofSource .go t).InCode i) (hj : (ofSource .go t).InCode j) (hij : i ≤ j) :
    settles ((ofSource .go t).slice i j) = true := by
  obtain ⟨a, r, w, ha, rfl, hmode⟩ := hi
  obtain ⟨a', r', w', ha', rfl, hmode'⟩ := hj
  have ha : t = a ++ r := ha
  have ha' : t = a' ++ r' := ha'
  obtain ⟨x, rfl, rfl, hx⟩ := Text.exists_split_of_le ha ha' hij
  have hslice : (ofSource .go t).slice (Text.byteLength a) (Text.byteLength (a ++ x)) = x := hx
  have h' : settles (a ++ (x ++ (r' ++ ['\n']))) = true := by
    have := h
    rw [LexicallyClosed, ha] at this
    simpa using this
  have hbehind := settlesFrom_scanTo h'
  have hwhole : settles (a ++ x ++ (r' ++ ['\n'])) = true := by rwa [List.append_assoc]
  rw [← scanTo_newline hwhole, scanTo_append] at hmode'
  rw [hslice]
  have hgo := @ofGo_scanTo (.code .fresh) rfl a (x ++ (r' ++ ['\n']))
  have hsettles := settlesFrom_of_scanTo hgo hbehind hmode'
  rw [← List.append_assoc, scanTo_newline (by rwa [List.append_assoc]), hmode] at hsettles
  rwa [settlesFrom_code_word w .fresh] at hsettles

/-- A character that ends a text is read the same before another text, unless it is a slash of code. -/
theorem step_append_last {mode : ScanMode} {c : Char} (hgo : ofGo mode = true)
    (h : settlesFrom mode [c] = true)
    (hslash : (Glyph.code ⟨c, (step .go mode c []).1⟩).getLast? ≠ some '/') (t : List Char) :
    step .go mode c t = step .go mode c [] := by
  by_cases hc : c = '/'
  · subst hc
    cases mode with
    | code w => exact absurd rfl hslash
    | blockClose => rfl
    | rawOpen left hashes => exact absurd hgo Bool.false_ne_true
    | raw hashes => exact absurd hgo Bool.false_ne_true
    | rawClose left => exact absurd hgo Bool.false_ne_true
    | character ahead => cases ahead <;> exact rfl
    | lineComment | blockOpen => exact rfl
    | escaped q => exact absurd h (by simp [settlesFrom, step, literalStep])
    | blockComment => exact absurd h (by simp [settlesFrom, step])
    | quoted q escapes =>
      have hq : '/' ≠ q := by
        rintro rfl
        exact absurd hgo (by simp [ofGo])
      exact absurd h (by simp [settlesFrom, step, hq, literalStep])
  · exact @step_append _ _ [] _ hgo h fun _ hc' => absurd hc' hc

/-- The first character of a text that settles and does not end in a slash of code is read the same
whatever follows the text. -/
theorem step_append_of_settles {mode : ScanMode} {c : Char} {x : List Char} (hgo : ofGo mode = true)
    (h : settlesFrom mode (c :: x) = true)
    (hslash : (showGlyphs (glyphsFrom .go mode (c :: x))).getLast? ≠ some '/') (t : List Char) :
    step .go mode c (x ++ t) = step .go mode c x ∧
      (showGlyphs (glyphsFrom .go (step .go mode c x).2 x)).getLast? ≠ some '/' := by
  rw [glyphsFrom, showGlyphs_cons] at hslash
  constructor
  · cases x with
    | nil => exact step_append_last hgo h (by simpa [glyphsFrom, showGlyphs] using hslash) t
    | cons d x => exact step_append hgo h fun hnil => absurd hnil (List.cons_ne_nil d x)
  · intro hlast
    rw [List.getLast?_append, hlast] at hslash
    exact hslash rfl

/-- A text that settles and does not end in a slash of code is read on its own. -/
theorem glyphsFrom_append_of_settles {mode : ScanMode} {x : List Char} (hgo : ofGo mode = true)
    (h : settlesFrom mode x = true)
    (hslash : (showGlyphs (glyphsFrom .go mode x)).getLast? ≠ some '/') (t : List Char) :
    glyphsFrom .go mode (x ++ t) = glyphsFrom .go mode x ++ glyphs .go t ∧
      settlesFrom mode (x ++ t) = settles t := by
  induction x generalizing mode with
  | nil =>
    obtain ⟨w, rfl⟩ := eq_code_of_settlesFrom_nil h
    exact ⟨glyphsFrom_code w t, settlesFrom_code_word w .fresh t⟩
  | cons c x ih =>
    obtain ⟨hstep, hlater⟩ := step_append_of_settles hgo h hslash t
    have hmeets : meets mode c (x ++ t) = meets mode c x := by
      have hmet := meets_of_settlesFrom h
      rw [hmet]
      cases mode with
      | code w =>
        by_cases hc : c = '\''
        · obtain ⟨n, hn⟩ := exists_bodyOnLine? hmet hc
          unfold meets
          rw [bodyOnLine?_append hn t, Option.isSome_some, Bool.or_true]
        · simp [meets, hc]
      | character ahead => rcases ahead with _ | _ | _ <;> exact hmet
      | _ => exact hmet
    obtain ⟨hglyphs, hsettles⟩ := ih (ofGo_step hgo c x) (settlesFrom_step h) hlater
    rw [List.cons_append, glyphsFrom, glyphsFrom, settlesFrom_cons, hstep, hmeets, hglyphs, hsettles,
      meets_of_settlesFrom h]
    exact ⟨rfl, rfl⟩

/-- Behind a text that settles and does not end in a slash of code the scan stands in code. -/
theorem exists_scanTo_of_settles {mode : ScanMode} {x : List Char} (hgo : ofGo mode = true)
    (h : settlesFrom mode x = true)
    (hslash : (showGlyphs (glyphsFrom .go mode x)).getLast? ≠ some '/') (t : List Char) :
    ∃ w, scanTo mode x t = .code w := by
  induction x generalizing mode with
  | nil => exact eq_code_of_settlesFrom_nil h
  | cons c x ih =>
    obtain ⟨hstep, hlater⟩ := step_append_of_settles hgo h hslash t
    rw [scanTo, hstep]
    exact ih (ofGo_step hgo c x) (settlesFrom_step h) hlater

end Closed

/-! ## What is kept -/

/-- The scan stands in code at both ends of the part, and no slash of code stands directly before it. -/
structure CutsCode (m : Masked) (b : Span) : Prop where
  start : m.InCode b.start
  stop : m.InCode b.stop
  apart : m.byteBefore b.start ≠ some '/'.toUInt8

/-- Whether a scan stands in code. -/
def isCodeMode : ScanMode → Bool
  | .code _ => true
  | _ => false

theorem inCode_iff {m : Masked} {i : Nat} :
    m.InCode i ↔ ∃ n ≤ m.source.length, Text.byteLength (m.source.take n) = i ∧
      isCodeMode (scanTo (.code .fresh) (m.source.take n) (m.source.drop n)) = true := by
  constructor
  · rintro ⟨a, rest, w, hsource, hlen, hmode⟩
    refine ⟨a.length, by rw [hsource]; simp, ?_⟩
    rw [hsource, List.take_left, List.drop_left, hmode]
    exact ⟨hlen, rfl⟩
  · rintro ⟨n, -, hlen, hmode⟩
    cases hscan : scanTo (.code .fresh) (m.source.take n) (m.source.drop n) with
    | code w => exact ⟨_, _, w, (List.take_append_drop n _).symm, hlen, hscan⟩
    | _ => rw [hscan] at hmode; exact absurd hmode Bool.false_ne_true

instance (m : Masked) (i : Nat) : Decidable (m.InCode i) :=
  decidable_of_iff' _ inCode_iff

instance (m : Masked) (b : Span) : Decidable (m.CutsCode b) :=
  decidable_of_iff (m.InCode b.start ∧ m.InCode b.stop ∧ m.byteBefore b.start ≠ some '/'.toUInt8)
    ⟨fun h => ⟨h.1, h.2.1, h.2.2⟩, fun h => ⟨h.start, h.stop, h.apart⟩⟩

section Kept

variable {t : List Char}

/-- The next part of a text that is left out, with what stands before and behind it in the code. -/
theorem exists_parts {m : Masked} {start : Nat} {a rest : List Char} {s : Span} {ss : List Span}
    (hcode : m.code = a ++ rest) (ha : Text.byteLength a = start)
    (hparts : m.PartsFrom start (s :: ss)) :
    ∃ x y z, rest = x ++ (y ++ z) ∧ Text.byteLength (a ++ x) = s.start ∧
      Text.byteLength (a ++ x ++ y) = s.stop ∧
      Client.without m.code start (s :: ss) = x ++ Client.without m.code s.stop ss ∧
      Text.bytes y = m.byteSlice s.start s.stop := by
  obtain ⟨hstart, hstop, hcutStart, hcutStop, -⟩ := hparts
  obtain ⟨-, u, u', hu, hus⟩ := hcutStart
  obtain ⟨-, v, z, hv, hvs⟩ := hcutStop
  obtain ⟨x, rfl, rfl, hx⟩ := Text.exists_split_of_le hcode hu (by omega)
  obtain ⟨y, rfl, rfl, hy⟩ := Text.exists_split_of_le hu hv (by omega)
  refine ⟨x, y, z, rfl, hus, hvs, ?_, ?_⟩
  · rw [Client.without, ← ha, ← hus]
    exact congrArg (· ++ _) hx
  · have hfrom : m.CodeFrom s.start (y ++ z) := ⟨a ++ x, hu, hus⟩
    rw [← hfrom.byteSlice, ← hvs, Text.byteLength_append (a ++ x), hus]

/-- The character before an offset is the last one of what stands before it. -/
theorem byteBefore_of_codeSlice {m : Masked} {i j : Nat} {c : Char} (hi : m.CutsAt i)
    (hj : m.CutsAt j) (hij : i ≤ j) (h : (m.codeSlice i j).getLast? = some c) (hc : c.utf8Size = 1) :
    m.byteBefore j = some c.toUInt8 := by
  obtain ⟨-, a, a', ha, rfl⟩ := hi
  obtain ⟨-, b, b', hb, rfl⟩ := hj
  obtain ⟨x, rfl, rfl, hx⟩ := Text.exists_split_of_le ha hb hij
  have hx : m.codeSlice (Text.byteLength a) (Text.byteLength (a ++ x)) = x := hx
  rw [hx] at h
  obtain ⟨init, rfl⟩ := List.getLast?_eq_some_iff.1 h
  rw [byteBefore_byteLength hb, ← List.append_assoc, Text.bytes_append, Text.bytes_cons_of_narrow hc,
    Text.bytes_nil, List.getLast?_append_of_ne_nil _ (List.cons_ne_nil _ _)]
  rfl

/-- The code before a part that is cut out does not end in a slash. -/
theorem CutsCode.getLast?_mask_slice_ne {start : Nat} {s : Span} (hcut : (ofSource .go t).CutsCode s)
    (hin : (ofSource .go t).InCode start) (hle : start ≤ s.start) :
    (mask .go ((ofSource .go t).slice start s.start)).getLast? ≠ some '/' := by
  rw [← mask_slice hin hcut.start hle]
  exact fun hlast => hcut.apart
    (byteBefore_of_codeSlice hin.cutsAt hcut.start.cutsAt hle hlast (by decide))

/-- What is kept of a lexically closed text is masked as it was, and lexically closed: when the scan
stands in code where parts of it are left out. -/
theorem mask_without (ht : LexicallyClosed t) {start : Nat} {ss : List Span}
    (hin : (ofSource .go t).InCode start) (hparts : (ofSource .go t).PartsFrom start ss)
    (hcuts : ∀ s ∈ ss, (ofSource .go t).CutsCode s) :
    LexicallyClosed (Client.without t start ss) ∧
      mask .go (Client.without t start ss) = Client.without (mask .go t) start ss := by
  induction ss generalizing start with
  | nil =>
    obtain ⟨a, rest, w, hsource, rfl, hmode⟩ := hin
    obtain ⟨-, b, hcode, hlen⟩ := @InCode.textFrom t _ _ _ hsource hmode
    have hsource : t = a ++ rest := hsource
    have hcode : mask .go t = b ++ mask .go rest := hcode
    have hrest : Client.without t (Text.byteLength a) [] = rest := by
      rw [Client.without, hsource, Text.dropBytes_append]
    have hmask : Client.without (mask .go t) (Text.byteLength a) [] = mask .go rest := by
      rw [Client.without, hcode, ← hlen, Text.dropBytes_append]
    rw [hrest, hmask]
    exact ⟨ht.drop hsource hmode, rfl⟩
  | cons s ss ih =>
    obtain ⟨hle, -, -, -, hlater⟩ := hparts
    have hcut := hcuts s List.mem_cons_self
    obtain ⟨hclosed, hmask⟩ := ih hcut.stop hlater fun s' hs => hcuts s' (List.mem_cons_of_mem s hs)
    have hsettles := ht.settles_slice hin hcut.start hle
    have hslice := mask_slice hin hcut.start hle
    have hslash := hcut.getLast?_mask_slice_ne hin hle
    have happend (rest : List Char) := glyphsFrom_append_of_settles rfl hsettles hslash rest
    rw [Client.without, Client.without, ← hmask]
    refine ⟨?_, ?_⟩
    · unfold LexicallyClosed
      rw [List.append_assoc]
      exact (happend _).2.trans hclosed
    · show mask .go ((ofSource .go t).slice start s.start ++ Client.without t s.stop ss) =
        (ofSource .go t).codeSlice start s.start ++ mask .go (Client.without t s.stop ss)
      rw [hslice]
      unfold mask
      rw [glyphs, (happend _).1, showGlyphs_append]
      rfl

/-- What is kept of a text opens and closes what the text does, when the parts that are left out are
well nested. -/
theorem nestFrom_without_code {m : Masked} {start : Nat} {a rest : List Char} {ss : List Span}
    (hcode : m.code = a ++ rest) (ha : Text.byteLength a = start) (hparts : m.PartsFrom start ss)
    (hnested : ∀ s ∈ ss, WellNested (m.byteSlice s.start s.stop)) {st st' : List Delimiter}
    (h : nestFrom st (Text.bytes rest) = some st') :
    nestFrom st (Text.bytes (Client.without m.code start ss)) = some st' := by
  induction ss generalizing start a rest st with
  | nil =>
    rw [Client.without, hcode, ← ha, Text.dropBytes_append]
    exact h
  | cons s ss ih =>
    obtain ⟨x, y, z, rfl, -, hstop, hwithout, hy⟩ := exists_parts hcode ha hparts
    have hnest := hnested s List.mem_cons_self
    rw [← hy] at hnest
    rw [Text.bytes_append, Text.bytes_append] at h
    obtain ⟨mid, hx, h⟩ := nestFrom_append_eq_some.1 h
    rw [nestFrom_append_of_eq (hnest.nestFrom mid)] at h
    rw [hwithout, Text.bytes_append, nestFrom_append_of_eq hx]
    exact ih (by rw [hcode]; simp) hstop hparts.2.2.2.2
      (fun s' hs => hnested s' (List.mem_cons_of_mem s hs)) h

theorem LexicallyClosed.unsplit (h : LexicallyClosed t) : Unsplit (glyphs .go t) :=
  have hgo : ofGo (.code .fresh) = true := rfl
  (whole_of_settlesFrom_blank hgo (by decide) (by simp) h).unsplit

/-- The statements that are kept of a text that can be laid out anew: they are lexically closed, and show
the symbols and delimiters of the text without its error blocks, when each of them is cut out in code. -/
theorem exists_kept (ht : LexicallyClosed t)
    (hcuts : ∀ s ∈ (ofSource .go t).errorBlocks, (ofSource .go t).CutsCode s)
    (hlaid : ¬Text.Ragged (Client.without t 0 (ofSource .go t).errorBlocks)) :
    ∃ kept, Client.keptStatements? t = some kept ∧ LexicallyClosed kept ∧
      delimiters (mask .go kept) =
        delimiters (Client.without (mask .go t) 0 (ofSource .go t).errorBlocks) ∧
      symbols (mask .go kept) = symbols (Client.without (mask .go t) 0 (ofSource .go t).errorBlocks) := by
  obtain ⟨kept, hkept⟩ := Option.ne_none_iff_exists'.1 (mt Text.tidy?_eq_none_iff.1 hlaid)
  have hstart : (ofSource .go t).InCode 0 := ⟨[], t, .fresh, rfl, rfl, rfl⟩
  obtain ⟨hclosed, hmask⟩ := mask_without ht hstart (parts_errorBlocks ht.unsplit) hcuts
  obtain ⟨hsettles, hdelimiters, hsymbols⟩ :=
    settles_of_content_eq (Text.content_tidy? hkept).symm hclosed
  rw [hmask] at hdelimiters hsymbols
  exact ⟨kept, hkept, hsettles, hdelimiters, hsymbols⟩

/-- The statements that are kept of a lexically closed text with well-nested delimiters are lexically
closed and have well-nested delimiters: when every conditional has its block, a block or a conditional
stands behind every `else`, each error block is cut out in code, and the rest can be laid out anew. -/
theorem kept_closed (ht : LexicallyClosed t) (hm : (ofSource .go t).Branching)
    (hcuts : ∀ s ∈ (ofSource .go t).errorBlocks, (ofSource .go t).CutsCode s)
    (hlaid : ¬Text.Ragged (Client.without t 0 (ofSource .go t).errorBlocks)) :
    ∃ kept, Client.keptStatements? t = some kept ∧ LexicallyClosed kept ∧
      WellNested (Text.bytes (mask .go kept)) := by
  obtain ⟨kept, hkept, hclosed, hdelimiters, -⟩ := exists_kept ht hcuts hlaid
  refine ⟨kept, hkept, hclosed, ?_⟩
  unfold WellNested
  rw [← nestFrom_delimiters, hdelimiters, nestFrom_delimiters]
  refine nestFrom_without_code (m := ofSource .go t) (a := []) rfl rfl (parts_errorBlocks ht.unsplit)
    (fun s hs => ?_) hm.nested
  obtain ⟨i, opened, closed, hheads⟩ := exists_heads hs
  exact (hheads.wellNested ht.unsplit hm).2

/-- Statements with an error block between comments over several lines. -/
def commentedBlock : List Char :=
  "/* a\n*/\nif err != nil \x7b\n\x7d else \x7b\n\tb(\"\x7d\")\n\x7d // c\n/*\n*/ d()\n".toList

theorem kept_closed_commentedBlock :
    (ofSource .go commentedBlock).errorBlocks ≠ [] ∧
      ∃ kept, Client.keptStatements? commentedBlock = some kept ∧ LexicallyClosed kept ∧
        WellNested (Text.bytes (mask .go kept)) :=
  ⟨by decide +kernel, kept_closed (by decide +kernel)
    ⟨by decide +kernel, by decide +kernel, by decide +kernel⟩ (by decide +kernel)
    (mt Text.tidy?_eq_none_iff.2 (by decide +kernel))⟩

/-- An error block on the line that ends a comment. -/
def blockBehindComment : List Char :=
  "/* note\n*/ if err != nil \x7b\n\treturn\n\x7d\nc.done()\n".toList

/-- The block goes with its line, and with the end of the comment. -/
theorem comment_cut_open :
    LexicallyClosed blockBehindComment ∧ (ofSource .go blockBehindComment).Branching ∧
      Client.keptStatements? blockBehindComment = some "/* note\nc.done()".toList ∧
      ¬LexicallyClosed "/* note\nc.done()".toList :=
  ⟨by decide +kernel, ⟨by decide +kernel, by decide +kernel, by decide +kernel⟩, by decide +kernel,
    by decide +kernel⟩

end Kept

end Masked

end RpcBindings
