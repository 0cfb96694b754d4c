import RpcBindings.Proofs.Masked.Content

/-!
The delimiters that show in a text.

Which delimiters are open behind a text depends on its delimiters alone (`nestFrom_delimiters`), and
these are the same in whatever way the text is written: as lines with other blanks around them
(`delimiters_mask`) or with other blanks and comments between its tokens (`delimiters_tokens`). `Leads`
follows the open delimiters through a text that is put together from parts.
-/

namespace RpcBindings

namespace Masked

open Delimiter

/-! ## Parts of a well-nested text -/

section Parts

variable {m : Masked} {i j : Nat}

theorem nestFrom_append_eq_some {st st' : List Delimiter} {a b : List UInt8} :
    nestFrom st (a ++ b) = some st' ↔ ∃ mid, nestFrom st a = some mid ∧ nestFrom mid b = some st' := by
  rw [nestFrom_append, Option.bind_eq_some_iff]

/-- Between an opener of a well-nested text and its partner the text is well nested. -/
theorem wellNested_of_closer? (h : WellNested m.bytes) (hc : m.closer? i = some j) :
    WellNested (m.byteSlice (i + 1) j) := by
  unfold closer? at hc
  split at hc
  · cases hc
  · rename_i b bs hdrop
    split at hc
    · cases hc
    · rename_i d hd
      obtain ⟨k, hk, rfl⟩ := Option.map_eq_some_iff.1 hc
      unfold WellNested at h
      rw [← List.take_append_drop i m.bytes, hdrop] at h
      obtain ⟨st, -, hrest⟩ := nestFrom_append_eq_some.1 h
      rw [eq_opener_of_ofOpener? hd, nestFrom, nestStep_opener, Option.bind_some] at hrest
      obtain ⟨hbetween, -⟩ := @nestFrom_of_closerOffset d [] st [] bs k hrest hk
      have hslice : m.byteSlice (i + 1) (i + 1 + k) = bs.take k := by
        unfold byteSlice
        rw [← List.drop_drop, hdrop, Nat.add_sub_cancel_left]
        rfl
      rw [hslice]
      exact hbetween

theorem byteSlice_succ {start : Nat} {b : UInt8} (hb : m.bytes[i]? = some b) (h : start ≤ i) :
    m.byteSlice start (i + 1) = m.byteSlice start i ++ [b] := by
  have hget : (m.bytes.drop start)[i - start]? = some b := by
    rw [List.getElem?_drop, show start + (i - start) = i by omega, hb]
  unfold byteSlice
  rw [show i + 1 - start = i - start + 1 by omega, List.take_add_one, hget]
  rfl

theorem byteSlice_append {k : Nat} (hij : i ≤ j) (hjk : j ≤ k) :
    m.byteSlice i k = m.byteSlice i j ++ m.byteSlice j k := by
  unfold byteSlice
  rw [show k - i = (j - i) + (k - j) by omega, List.take_add, List.drop_drop,
    show i + (j - i) = j by omega]

/-- Where bytes are found they stand. -/
theorem byteSlice_of_isPrefixOf {pattern : List UInt8}
    (h : pattern.isPrefixOf (m.bytes.drop i) = true) :
    m.byteSlice i (i + pattern.length) = pattern := by
  obtain ⟨rest, hrest⟩ := List.isPrefixOf_iff_prefix.1 h
  unfold byteSlice
  rw [← hrest, Nat.add_sub_cancel_left, List.take_left]

/-- Between two places of a text its bytes are those of its code. -/
theorem bytes_codeSlice (hi : m.CutsAt i) (hj : m.CutsAt j) (hij : i ≤ j) :
    Text.bytes (m.codeSlice i j) = m.byteSlice i j := by
  obtain ⟨hlen, -, hdrop⟩ :=
    codeSlice_of_append (x := []) (y := m.codeSlice i j) hi hj hij rfl
  rw [Text.byteLength_nil, Nat.add_zero] at hlen hdrop
  unfold byteSlice
  rw [hdrop, List.take_left' (by rw [Text.length_bytes]; omega)]

/-- An opener of a well-nested text and its partner are well nested with what stands between them. -/
theorem wellNested_enclosed {d : Delimiter} (h : WellNested m.bytes)
    (hopens : m.hasChar i d.opener = true) (hc : m.closer? i = some j) :
    WellNested (m.byteSlice i (j + 1)) := by
  have hlt := (lt_of_closer? hc).1
  have hbytes : m.byteSlice i (j + 1) =
      d.opener.toUInt8 :: (m.byteSlice (i + 1) j ++ [d.closer.toUInt8]) := by
    have hfirst : m.byteSlice i (i + 1) = [d.opener.toUInt8] := by
      rw [byteSlice_succ (hasChar_iff.1 hopens) (Nat.le_refl i), byteSlice_self, List.nil_append]
    rw [byteSlice_append (Nat.le_succ i) (Nat.le_succ_of_le hlt), hfirst,
      byteSlice_succ (hasChar_iff.1 (hasChar_closer hopens hc)) hlt]
    rfl
  rw [hbytes]
  exact (wellNested_of_closer? h hc).enclose d

end Parts

/-! ## Delimiters -/

/-- The delimiters of a text, in order. -/
def delimiters (cs : List Char) : List UInt8 :=
  (Text.bytes cs).filter (!isPlain ·)

/-- What is open behind a text is a question of its delimiters. -/
theorem nestFrom_delimiters (st : List Delimiter) (cs : List Char) :
    nestFrom st (delimiters cs) = nestFrom st (Text.bytes cs) := by
  unfold delimiters
  induction Text.bytes cs generalizing st with
  | nil => rfl
  | cons b bs ih =>
    cases hb : isPlain b with
    | true =>
      rw [List.filter_cons_of_neg (by simp [hb]), ih, nestFrom, nestStep_of_isPlain hb]
      rfl
    | false =>
      rw [List.filter_cons_of_pos (by simp [hb]), nestFrom, nestFrom]
      exact congrArg _ (funext ih)

theorem delimiters_append (a b : List Char) : delimiters (a ++ b) = delimiters a ++ delimiters b := by
  unfold delimiters
  rw [Text.bytes_append, List.filter_append]

theorem delimiters_cons (c : Char) (cs : List Char) :
    delimiters (c :: cs) = delimiters [c] ++ delimiters cs :=
  delimiters_append [c] cs

/-- Whether a character opens or closes. -/
def isDelimiter (c : Char) : Bool :=
  ['(', ')', '[', ']', '\x7b', '\x7d'].contains c

theorem isPlain_of_not_isDelimiter {c : Char} (h : isDelimiter c = false) {b : UInt8}
    (hb : b ∈ Text.bytes [c]) : isPlain b = true := by
  have hne (d : Delimiter) : b ≠ d.opener.toUInt8 ∧ b ≠ d.closer.toUInt8 := by
    by_cases hc : c.utf8Size = 1
    · rw [Text.bytes_cons_of_narrow hc, Text.bytes_nil, List.mem_singleton] at hb
      have hchar {e : Char} (he : e.utf8Size = 1) (hdelimiter : isDelimiter e = true) :
          b ≠ e.toUInt8 := by
        rintro rfl
        rw [← Text.eq_of_toUInt8_eq he hc hb, hdelimiter] at h
        exact Bool.noConfusion h
      cases d <;> exact ⟨hchar rfl rfl, hchar rfl rfl⟩
    · have hwide : 0x80 ≤ b := Text.le_of_mem_wide hc (by simpa [Text.bytes] using hb)
      constructor <;> rintro rfl <;> revert hwide <;> cases d <;> decide
  unfold isPlain
  rw [Bool.and_eq_true, Option.isNone_iff_eq_none, Option.isNone_iff_eq_none]
  constructor
  · refine Option.eq_none_iff_forall_ne_some.2 fun d hd => ?_
    exact (hne d).1 (eq_opener_of_ofOpener? hd)
  · refine Option.eq_none_iff_forall_ne_some.2 fun d hd => ?_
    exact (hne d).2 (eq_closer_of_ofCloser? hd)

theorem delimiters_eq_nil {cs : List Char} (h : ∀ c ∈ cs, isDelimiter c = false) :
    delimiters cs = [] := by
  unfold delimiters Text.bytes
  refine List.filter_eq_nil_iff.2 fun b hb => ?_
  obtain ⟨c, hc, hb⟩ := List.mem_flatMap.1 hb
  rw [isPlain_of_not_isDelimiter (h c hc) (b := b) (by simpa [Text.bytes] using hb)]
  decide

theorem not_isDelimiter_of_isBlank {c : Char} (h : Text.isBlank c = true) :
    isDelimiter c = false := by
  refine Bool.eq_false_iff.2 fun hdelimiter => ?_
  have hmem := List.contains_iff_mem.1 hdelimiter
  have hall : ∀ d ∈ ['(', ')', '[', ']', '\x7b', '\x7d'], Text.isBlank d = false := by decide
  rw [hall c hmem] at h
  exact Bool.noConfusion h

theorem delimiters_of_allBlank {b : List Char} (h : Text.allBlank b = true) : delimiters b = [] :=
  delimiters_eq_nil fun c hc => not_isDelimiter_of_isBlank (List.all_eq_true.1 h c hc)

/-- Between two places of a text that hold only blanks between them nothing is opened. -/
theorem wellNested_of_isBlank {m : Masked} {i j : Nat} (hi : m.CutsAt i) (hj : m.CutsAt j)
    (hij : i ≤ j) (h : m.isBlank i j = true) : WellNested (m.byteSlice i j) := by
  unfold WellNested
  rw [← bytes_codeSlice hi hj hij, ← nestFrom_delimiters, delimiters_of_allBlank h]
  rfl

/-! ## Lines -/

theorem delimiters_line {a : List Char} (ha : '\n' ∉ a) :
    delimiters a = (Text.content a).flatMap delimiters := by
  obtain ⟨head, tail, heq, hhead, htail⟩ := Text.exists_trim a
  have htrim : delimiters a = delimiters (Text.trim a) := by
    conv => lhs; rw [heq]
    rw [delimiters_append, delimiters_append, delimiters_of_allBlank hhead,
      delimiters_of_allBlank htail, List.append_nil, List.nil_append]
  rcases Text.content_line_cases ha with ⟨hnil, hcontent⟩ | hcontent
  · rw [htrim, hnil, hcontent]
    rfl
  · rw [htrim, hcontent, List.flatMap_singleton]

/-- The delimiters of a text are those that its lines hold. -/
theorem delimiters_content (cs : List Char) :
    delimiters cs = (Text.content cs).flatMap delimiters := by
  induction cs using Text.lines_induction with
  | line a ha => exact delimiters_line ha
  | more a b ha ih =>
    have hnewline : delimiters ['\n'] = [] := delimiters_of_allBlank (by decide)
    rw [Text.content_newline, List.flatMap_append, ← ih, ← delimiters_line ha, delimiters_append,
      delimiters_cons, hnewline, List.nil_append]

/-- The delimiters that show in some lines when each is masked on its own. -/
def lineDelimiters (ls : List (List Char)) : List UInt8 :=
  ls.flatMap fun r => delimiters (mask .go r)

theorem lineDelimiters_append (ls ls' : List (List Char)) :
    lineDelimiters (ls ++ ls') = lineDelimiters ls ++ lineDelimiters ls' :=
  List.flatMap_append

/-- The delimiters that show in a text are those that show in its lines. -/
theorem delimiters_mask {t : List Char} (h : ∀ r ∈ Text.content t, settles (r ++ ['\n']) = true) :
    delimiters (mask .go t) = lineDelimiters (Text.content t) := by
  rw [delimiters_content, content_mask h, List.flatMap_assoc]
  exact congrArg (List.flatMap · _) (funext fun r => (delimiters_content (mask .go r)).symm)

theorem nestFrom_mask {t : List Char} (h : ∀ r ∈ Text.content t, settles (r ++ ['\n']) = true)
    (st : List Delimiter) :
    nestFrom st (Text.bytes (mask .go t)) = nestFrom st (lineDelimiters (Text.content t)) := by
  rw [← delimiters_mask h, nestFrom_delimiters]

/-! ## Tokens -/

end Masked

/-- The delimiters of a token. -/
def GoToken.delimiters : GoToken → List UInt8
  | .code text => Masked.delimiters text
  | .literal _ | .comma => []

namespace Masked

/-- What a character of code can do: show, open a comment, or open a literal. -/
theorem codeStep_cases (w : WordState) (c : Char) (cs : List Char) :
    codeStep .go w c cs = (.shown, .code (w.next c)) ∨
      c = '/' ∧ inComment (codeStep .go w c cs).2 = true ∨
      (c = '"' ∨ c = '`' ∨ c = '\'') ∧ inLiteral (codeStep .go w c cs).2 = true := by
  unfold codeStep
  extract_lets
  split
  · split
    · exact .inr (.inl ⟨rfl, rfl⟩)
    · exact .inr (.inl ⟨rfl, rfl⟩)
    · exact .inl rfl
  · exact .inl (if_neg (by simp))
  · exact .inr (.inr ⟨.inl rfl, rfl⟩)
  · exact .inr (.inr ⟨.inr (.inl rfl), rfl⟩)
  · split
    · exact .inr (.inr ⟨.inr (.inr rfl), rfl⟩)
    · exact .inl rfl
  · exact .inl rfl

/-- In comments and literals only line feeds and quotes show. -/
theorem eq_of_shown {mode : ScanMode} {c : Char} {cs : List Char} (hgo : ofGo mode = true)
    (hmode : inLiteral mode = true ∨ inComment mode = true)
    (h : (step .go mode c cs).1 = .shown) : c = '\n' ∨ c = '"' ∨ c = '`' ∨ c = '\'' := by
  have hliteral (next : ScanMode) : (literalStep cs next).1 ≠ .shown := by
    unfold literalStep
    split <;> simp
  cases mode with
  | code w => exact absurd hmode (by simp [inLiteral, inComment])
  | lineComment =>
    unfold step at h
    by_cases hc : c = '\n'
    · exact .inl hc
    · rw [if_neg hc] at h
      exact absurd h (by simp)
  | blockOpen => exact absurd h (by simp [step])
  | blockComment =>
    unfold step at h
    simp only at h
    split at h <;> exact absurd h (by simp)
  | blockClose => exact absurd h (by simp [step])
  | quoted q escapes =>
    unfold step at h
    simp only at h
    split at h
    · exact absurd h (hliteral _)
    · split at h
      · rename_i hq
        subst hq
        simp only [ofGo, Bool.or_eq_true, beq_iff_eq] at hgo
        exact .inr (hgo.imp_right .inl)
      · exact absurd h (hliteral _)
  | escaped q => exact absurd h (hliteral _)
  | character ahead =>
    cases ahead with
    | zero =>
      unfold step at h
      by_cases hc : c = '\''
      · exact .inr (.inr (.inr hc))
      · simp only [if_neg hc] at h
        exact absurd h (by simp)
    | succ n => exact absurd h (by simp [step])
  | rawOpen left hashes => exact absurd hgo Bool.false_ne_true
  | raw hashes => exact absurd hgo Bool.false_ne_true
  | rawClose left => exact absurd hgo Bool.false_ne_true

theorem delimiters_hidden (c : Char) : delimiters (Glyph.hidden c).code = [] := by
  refine delimiters_of_allBlank (List.all_eq_true.2 fun d hd => ?_)
  rcases eq_of_mem_blank hd with rfl | rfl <;> decide

theorem delimiters_code {c : Char} {mark : Mark} (hc : isDelimiter c = false)
    (hmark : mark ≠ .torn) : delimiters (Glyph.code ⟨c, mark⟩) = [] := by
  cases mark with
  | shown =>
    refine delimiters_eq_nil fun d hd => ?_
    obtain rfl := List.mem_singleton.1 hd
    exact hc
  | hidden => exact delimiters_hidden c
  | torn => exact absurd rfl hmark

/-- What shows of a character in a comment or in a literal is no delimiter. -/
theorem delimiters_code_of_hidden {mode : ScanMode} {c : Char} {cs : List Char}
    (hgo : ofGo mode = true) (hmode : inLiteral mode = true ∨ inComment mode = true)
    (htorn : (step .go mode c cs).1 ≠ .torn) :
    delimiters (Glyph.code ⟨c, (step .go mode c cs).1⟩) = [] := by
  cases hmark : (step .go mode c cs).1 with
  | torn => exact absurd hmark htorn
  | hidden => exact delimiters_hidden c
  | shown =>
    refine delimiters_code ?_ (by simp)
    rcases eq_of_shown hgo hmode hmark with rfl | rfl | rfl | rfl <;> decide

theorem delimiters_endRun (run : List Char) :
    (endRun run).flatMap GoToken.delimiters = delimiters run.reverse := by
  unfold endRun
  cases run with
  | nil => rfl
  | cons c run => exact List.flatMap_singleton _ _

theorem delimiters_tokenStep_code {w : WordState} {run : List Char} {c : Char} {cs : List Char}
    (htorn : (step .go (.code w) c cs).1 ≠ .torn) :
    (tokenStep (.code w) (step .go (.code w) c cs).2 run c).1.flatMap GoToken.delimiters ++
        (if inLiteral (step .go (.code w) c cs).2 then []
          else delimiters (tokenStep (.code w) (step .go (.code w) c cs).2 run c).2.reverse) =
      delimiters run.reverse ++ delimiters (Glyph.code ⟨c, (step .go (.code w) c cs).1⟩) := by
  obtain hplain | ⟨rfl, hopens⟩ | ⟨hquote, hopens⟩ := codeStep_cases w c cs
  · have hstep : step .go (.code w) c cs = (.shown, .code (w.next c)) := hplain
    have hshown : Glyph.code ⟨c, .shown⟩ = [c] := rfl
    rw [hstep, hshown]
    by_cases hblank : Text.isBlank c = true
    · have hread : tokenStep (.code w) (.code (w.next c)) run c = (endRun run, []) := by
        simp [tokenStep, inLiteral, inComment, hblank]
      have hnone : delimiters [c] = [] := delimiters_of_allBlank (by simpa [Text.allBlank])
      rw [hread, delimiters_endRun, hnone]
      rfl
    · by_cases hcomma : c = ','
      · subst hcomma
        have hread : tokenStep (.code w) (.code (w.next ',')) run ',' =
            (endRun run ++ [.comma], []) := by
          simp [tokenStep, inLiteral, inComment, hblank]
        rw [hread, List.flatMap_append, delimiters_endRun, List.append_assoc]
        rfl
      · have hread : tokenStep (.code w) (.code (w.next c)) run c = ([], c :: run) := by
          simp [tokenStep, inLiteral, inComment, hblank, hcomma]
        rw [hread, List.reverse_cons, delimiters_append]
        rfl
  · have hopens : inComment (step .go (.code w) '/' cs).2 = true := hopens
    have hliteral : inLiteral (step .go (.code w) '/' cs).2 = false := by
      revert hopens
      cases (step .go (.code w) '/' cs).2 <;> simp [inComment, inLiteral]
    have hread : tokenStep (.code w) (step .go (.code w) '/' cs).2 run '/' = (endRun run, []) := by
      unfold tokenStep
      rw [hopens, hliteral]
      rfl
    rw [hread, hliteral, delimiters_endRun, delimiters_code (by decide) htorn]
    rfl
  · have hopens : inLiteral (step .go (.code w) c cs).2 = true := hopens
    have hread : tokenStep (.code w) (step .go (.code w) c cs).2 run c = (endRun run, [c]) := by
      unfold tokenStep
      rw [hopens]
      rfl
    rw [hread, if_pos hopens, delimiters_endRun, delimiters_code ?_ htorn]
    rcases hquote with rfl | rfl | rfl <;> decide

/-- What shows of one character goes into the tokens that end with it, or into the run behind it. -/
theorem delimiters_tokenStep {mode : ScanMode} {run : List Char} {c : Char} {cs : List Char}
    (hgo : ofGo mode = true) (hrun : inComment mode = true → run = [])
    (htorn : (step .go mode c cs).1 ≠ .torn) :
    (tokenStep mode (step .go mode c cs).2 run c).1.flatMap GoToken.delimiters ++
        (if inLiteral (step .go mode c cs).2 then []
          else delimiters (tokenStep mode (step .go mode c cs).2 run c).2.reverse) =
      (if inLiteral mode then [] else delimiters run.reverse) ++
        delimiters (Glyph.code ⟨c, (step .go mode c cs).1⟩) := by
  by_cases hliteral : inLiteral mode = true
  · rw [delimiters_code_of_hidden hgo (.inl hliteral) htorn, tokenStep, if_pos hliteral,
      if_pos hliteral]
    split <;> rfl
  · by_cases hcomment : inComment mode = true
    · rw [delimiters_code_of_hidden hgo (.inr hcomment) htorn, hrun hcomment, tokenStep,
        if_neg hliteral, if_neg hliteral, if_pos hcomment]
      split <;> rfl
    · rw [if_neg hliteral]
      cases mode with
      | code w => exact delimiters_tokenStep_code htorn
      | rawOpen | raw | rawClose => exact absurd hgo Bool.false_ne_true
      | quoted | escaped | character => exact absurd rfl hliteral
      | lineComment | blockOpen | blockComment | blockClose => exact absurd rfl hcomment

/-- The delimiters that show in a text are those of the run that is being read, and those of the
tokens behind it. -/
theorem delimiters_tokensFrom {mode : ScanMode} {run t : List Char} (hgo : ofGo mode = true)
    (hrun : inComment mode = true → run = []) (hwhole : Whole (glyphsFrom .go mode t)) :
    (tokensFrom mode run t).flatMap GoToken.delimiters =
      (if inLiteral mode then [] else delimiters run.reverse) ++
        delimiters (showGlyphs (glyphsFrom .go mode t)) := by
  induction t generalizing mode run with
  | nil =>
    rw [tokensFrom]
    split
    · rfl
    · rw [delimiters_endRun]
      exact (List.append_nil _).symm
  | cons c t ih =>
    have hlater : Whole (glyphsFrom .go (step .go mode c t).2 t) :=
      fun g hg => hwhole g (List.mem_cons_of_mem _ hg)
    rw [tokensFrom_cons rfl, List.flatMap_append,
      ih (ofGo_step hgo c t) (fun h => tokenStep_of_inComment h) hlater, glyphsFrom, showGlyphs_cons,
      delimiters_append, ← List.append_assoc, ← List.append_assoc,
      delimiters_tokenStep hgo hrun (hwhole _ List.mem_cons_self)]

/-- The delimiters that show in a text are those of its tokens. -/
theorem delimiters_tokens {t : List Char} (h : Whole (glyphs .go t)) :
    delimiters (mask .go t) = (tokens t).flatMap GoToken.delimiters :=
  (@delimiters_tokensFrom _ [] t rfl (fun _ => rfl) h).symm

/-! ## Through a text -/

/-- The text is closed, and leads from some open delimiters to others. -/
structure Leads (before : List Delimiter) (t : List Char) (after : List Delimiter) : Prop where
  solid : Solid t
  nest : nestFrom before (Text.bytes (mask .go t)) = some after

namespace Leads

variable {before mid after : List Delimiter} {a b : List Char}

theorem nil (st : List Delimiter) : Leads st [] st :=
  ⟨⟨closed_nil, by decide⟩, rfl⟩

theorem append (ha : Leads before a mid) (hb : Leads mid b after) : Leads before (a ++ b) after := by
  refine ⟨ha.solid.append hb.solid, ?_⟩
  rw [ha.solid.mask_append, Text.bytes_append, nestFrom_append_of_eq ha.nest]
  exact hb.nest

/-- What is open further out stays open. -/
theorem frame (h : Leads before a after) (outer : List Delimiter) :
    Leads (before ++ outer) a (after ++ outer) :=
  ⟨h.solid, nestFrom_frame h.nest outer⟩

end Leads

theorem solid_of_bare {t : List Char} (h : t.all isBareChar = true) : Solid t := by
  refine ⟨closed_of_isBare (isBare_of_all h), fun hslash => ?_⟩
  exact absurd (List.all_eq_true.1 h _ (List.mem_of_getLast? hslash)) (by decide)

/-- A text in which nothing can begin leads where its delimiters do. -/
theorem leads_of_bare {before after : List Delimiter} {t : List Char} (h : t.all isBareChar = true)
    (hnest : nestFrom before (Text.bytes t) = some after) : Leads before t after := by
  refine ⟨solid_of_bare h, ?_⟩
  rw [mask_of_isBare (isBare_of_all h)]
  exact hnest

/-- A line leads where what it holds does. -/
theorem leads_line {before after : List Delimiter} {a : List Char} (ha : '\n' ∉ a)
    (hsettles : ∀ r ∈ Text.content a, settles (r ++ ['\n']) = true)
    (h : nestFrom before (lineDelimiters (Text.content a)) = some after) :
    Leads before (a ++ ['\n']) after := by
  have hcontent : Text.content (a ++ ['\n']) = Text.content a :=
    Text.content_append_blank (by decide) a
  refine ⟨(solid_line (content_mask_line ha hsettles).1).1, ?_⟩
  rw [nestFrom_mask (hcontent ▸ hsettles), hcontent]
  exact h

end Masked

end RpcBindings
