import RpcBindings.Proofs.Client.ErrorTest
import RpcBindings.Proofs.Masked.TopLevel

/-!
The shape of error blocks.

Where every conditional has its block and every `else` is followed by a block or by a conditional, the
searches for a block and for its branches go over well-nested text only. Main statements: an error block
is well nested (`Heads.wellNested`), and no `else` follows it (`Heads.head?_symbols_behind`).
-/

namespace RpcBindings

namespace Masked

/-! ## Symbols next to an `else` -/

/-- The symbol `else`. -/
def elseSymbol : List Char := "else".toList

/-- Behind each `else` among the symbols stands a brace or another conditional. -/
structure ElseContinues (ss : List (List Char)) : Prop where
  last : ss.getLast? ≠ some elseSymbol
  chain : ss.IsChain fun s s' => s = elseSymbol → s' = ['\x7b'] ∨ s' = "if".toList

instance (ss : List (List Char)) : Decidable (ElseContinues ss) :=
  decidable_of_iff (ss.getLast? ≠ some elseSymbol ∧
      ss.IsChain fun s s' => s = elseSymbol → s' = ['\x7b'] ∨ s' = "if".toList)
    ⟨fun h => ⟨h.1, h.2⟩, fun h => ⟨h.1, h.2⟩⟩

/-- What stands behind an `else`. -/
theorem ElseContinues.behind {x y : List (List Char)} (h : ElseContinues (x ++ elseSymbol :: y)) :
    ∃ s rest, y = s :: rest ∧ (s = ['\x7b'] ∨ s = "if".toList) := by
  cases y with
  | nil => exact absurd (by simp) h.last
  | cons s rest =>
    have hchain := (List.isChain_append.1 h.chain).2.1
    exact ⟨s, rest, rfl, (List.isChain_cons_cons.1 hchain).1 rfl⟩

/-- Every conditional is followed at its own level by a block. -/
def IfsOpen (m : Masked) : Prop :=
  ∀ i ∈ m.wordStarts "if", ∃ opened, i ≤ opened ∧ m.hasChar opened '\x7b' = true ∧
    WellNested (m.byteSlice i opened)

instance (m : Masked) : Decidable m.IfsOpen :=
  decidable_of_iff (∀ i ∈ m.wordStarts "if", ∃ opened < m.size, i ≤ opened ∧
      m.hasChar opened '\x7b' = true ∧ WellNested (m.byteSlice i opened))
    (forall₂_congr fun _ _ => exists_congr fun _ =>
      and_iff_right_of_imp fun h => lt_size_of_hasChar h.2.1)

variable {m : Masked} {i j k opened closed : Nat} {b : Span}

theorem mem_wordStarts_if (h : m.wordAt "if".toList i = true) : i ∈ m.wordStarts "if" :=
  have hfirst : m.hasChar i 'i' = true := hasChar_of_wordAt (k := 0) h rfl
  mem_wordStarts.2 ⟨lt_size_of_hasChar hfirst, h⟩

/-! ## Searches for a block -/

/-- Blanks open nothing. -/
theorem all_isPlain_of_allBlank {g : List Char} (hg : Text.allBlank g = true) :
    (Text.bytes g).all isPlain = true := by
  refine List.all_eq_true.2 fun x hx => ?_
  unfold Text.bytes at hx
  obtain ⟨d, hd, hx⟩ := List.mem_flatMap.1 hx
  exact isPlain_of_not_isDelimiter (not_isDelimiter_of_isBlank (List.all_eq_true.1 hg d hd))
    (by simpa [Text.bytes] using hx)

/-- Characters of one byte whose bytes begin a text begin it themselves. -/
theorem exists_append_of_isPrefixOf {word c : List Char} (hword : ∀ d ∈ word, d.utf8Size = 1)
    (h : (Text.bytes word).isPrefixOf (Text.bytes c) = true) : ∃ rest, c = word ++ rest := by
  induction word generalizing c with
  | nil => exact ⟨c, rfl⟩
  | cons d word ih =>
    have hd := hword d List.mem_cons_self
    rw [Text.bytes_cons_of_narrow hd] at h
    cases c with
    | nil => exact absurd h (by simp)
    | cons e c =>
      by_cases he : e.utf8Size = 1
      · rw [Text.bytes_cons_of_narrow he, List.isPrefixOf_cons_cons, Bool.and_eq_true,
          beq_iff_eq] at h
        obtain rfl := Text.eq_of_toUInt8_eq hd he h.1
        obtain ⟨rest, rfl⟩ := ih (fun x hx => hword x (List.mem_cons_of_mem d hx)) h.2
        exact ⟨rest, rfl⟩
      -- the first byte of a longer character is none of a narrow one
      · obtain ⟨x, xs, hx⟩ := List.exists_cons_of_ne_nil (@String.utf8EncodeChar_ne_nil e)
        have hwide := Text.le_of_mem_wide he (hx ▸ List.mem_cons_self)
        rw [Text.bytes_cons, hx, List.cons_append, List.isPrefixOf_cons_cons, Bool.and_eq_true,
          beq_iff_eq] at h
        rw [← h.1] at hwide
        exact absurd (Text.toUInt8_lt_of_narrow hd) (UInt8.not_lt.2 hwide)

/-- A word that stands in code is read there. -/
theorem exists_code_of_wordAt {word a c : List Char} (hword : ∀ d ∈ word, d.utf8Size = 1)
    (hcode : m.code = a ++ c) (h : m.wordAt word (Text.byteLength a) = true) :
    ∃ rest, c = word ++ rest ∧ endsNoWord a = true ∧ beginsNoWord rest = true := by
  have hprefix := isPrefixOf_of_wordAt h
  rw [m.bytes_eq, hcode, Text.drop_bytes_append] at hprefix
  obtain ⟨rest, rfl⟩ := exists_append_of_isPrefixOf hword hprefix
  exact ⟨rest, rfl, (wordAt_iff hcode).1 h⟩

theorem wellNested_plain_append {a b : List UInt8} (ha : a.all isPlain = true) (hb : WellNested b) :
    WellNested (a ++ b) :=
  (wellNested_of_all_isPlain ha).append hb

/-- A word of letters opens nothing. -/
theorem byteSlice_word {word : List Char} (h : m.wordAt word i = true)
    (hplain : (Text.bytes word).all isPlain = true) :
    (m.byteSlice i (i + (Text.bytes word).length)).all isPlain = true := by
  rw [byteSlice_of_isPrefixOf (isPrefixOf_of_wordAt h)]
  exact hplain

/-- The search for the block of a conditional goes over well-nested text. -/
theorem IfsOpen.wellNested_condition (h : m.IfsOpen) (hi : m.wordAt "if".toList i = true)
    (hopened : m.findTopLevel? (i + "if".length) m.size '\x7b' = some opened) :
    WellNested (m.byteSlice i opened) := by
  obtain ⟨o, hle, hbrace, hnest⟩ := h i (mem_wordStarts_if hi)
  have hlen : (Text.bytes "if".toList).length = 2 := by decide
  have hword := byteSlice_word hi (by decide)
  have hafter : i + 2 ≤ o := by
    have := add_length_le_of_wordAt hi hle (hasChar_iff.1 hbrace) (by decide)
    rwa [hlen] at this
  rw [hlen] at hword
  rw [byteSlice_append (Nat.le_add_right i 2) hafter] at hnest
  have hcondition : WellNested (m.byteSlice (i + 2) o) := by
    unfold WellNested at hnest
    rwa [nestFrom_append_of_eq ((wellNested_of_all_isPlain hword).nestFrom [])] at hnest
  obtain ⟨k, hk, hik, -, hbefore⟩ := exists_findTopLevel? hafter hbrace hcondition
  obtain rfl : k = opened := Option.some.inj (hk.symm.trans hopened)
  rw [byteSlice_append (Nat.le_add_right i 2) hik]
  exact wellNested_plain_append hword hbefore

/-- Behind an `else` that is followed by a block or by a conditional a block is found. -/
theorem IfsOpen.exists_block_of_else (h : m.IfsOpen) {a c : List Char}
    (hcode : m.code = a ++ (elseSymbol ++ c)) (ha : endsNoWord a = true)
    (hc : beginsNoWord c = true) (helse : ElseContinues (symbols m.code)) :
    ∃ o, m.findTopLevel? (Text.byteLength a) m.size '\x7b' = some o ∧
      m.hasChar o '\x7b' = true ∧ WellNested (m.byteSlice (Text.byteLength a) o) := by
  have hsymbols : symbols m.code = symbols a ++ elseSymbol :: symbols c := by
    rw [hcode, symbols_append (.inl ha), symbols_word_append (by decide) (by decide) hc]
  rw [hsymbols] at helse
  obtain ⟨s, later, hs, hcases⟩ := helse.behind
  have hgap : ∃ gap rest, c = gap ++ (s ++ rest) ∧ Text.allBlank gap = true ∧
      (isWordChar (s.headD ' ') = true → beginsNoWord rest = true) := by
    rcases exists_symbol c with hblank | ⟨gap, s', rest, hc, hgap, hsym, hkind⟩
    · rw [symbols_of_allBlank hblank] at hs
      exact absurd hs (by simp)
    · obtain ⟨rfl, -⟩ := List.cons.inj (hsym.symm.trans hs)
      refine ⟨gap, rest, hc, hgap, fun hword => ?_⟩
      rcases hkind with ⟨d, rfl, hd, -⟩ | ⟨-, -, hrest⟩
      · exact absurd (hd.symm.trans hword) Bool.false_ne_true
      · exact hrest
  obtain ⟨gap, rest, rfl, hgapBlank, hrest⟩ := hgap
  have hfrom : m.CodeFrom (Text.byteLength a) (elseSymbol ++ gap ++ (s ++ rest)) :=
    ⟨a, by rw [hcode]; simp, rfl⟩
  have hplain : (m.byteSlice (Text.byteLength a)
      (Text.byteLength a + Text.byteLength (elseSymbol ++ gap))).all isPlain = true := by
    rw [hfrom.byteSlice, Text.bytes_append, List.all_append, all_isPlain_of_allBlank hgapBlank]
    rfl
  have hle := Nat.le_add_right (Text.byteLength a) (Text.byteLength (elseSymbol ++ gap))
  rcases hcases with rfl | rfl
  · obtain ⟨k, hk, -, -, hbefore⟩ := exists_findTopLevel? hle (hfrom.drop.hasChar (by decide))
      (wellNested_of_all_isPlain hplain)
    exact ⟨k, hk, hasChar_of_findTopLevel? hk, hbefore⟩
  · have hne : gap ≠ [] := by
      rintro rfl
      exact absurd hc Bool.false_ne_true
    have hends : endsNoWord (a ++ (elseSymbol ++ gap)) = true := by
      rw [← List.append_assoc, endsNoWord_append_of_ne_nil hne]
      exact endsNoWord_of_allBlank hgapBlank
    have hsplit : m.code = a ++ (elseSymbol ++ gap) ++ ("if".toList ++ rest) := by
      rw [hcode]
      simp
    have hword : m.wordAt "if".toList (Text.byteLength (a ++ (elseSymbol ++ gap))) = true :=
      (wordAt_iff hsplit).2 ⟨hends, hrest (by decide)⟩
    obtain ⟨o, hlo, hbrace, hnest⟩ := h _ (mem_wordStarts_if hword)
    rw [Text.byteLength_append] at hlo hnest
    have hwhole : WellNested (m.byteSlice (Text.byteLength a) o) := by
      rw [byteSlice_append hle hlo]
      exact wellNested_plain_append hplain hnest
    obtain ⟨k, hk, -, -, hbefore⟩ := exists_findTopLevel? (Nat.le_trans hle hlo) hbrace hwhole
    exact ⟨k, hk, hasChar_of_findTopLevel? hk, hbefore⟩

/-! ## Chains of branches -/

/-- A text with well-nested delimiters in which every conditional has its block, and behind every `else`
stands a block or a conditional. -/
structure Branching (m : Masked) : Prop where
  nested : WellNested m.bytes
  opens : m.IfsOpen
  continues : ElseContinues (symbols m.code)

/-- An `else` branch is well nested. -/
theorem Branching.wellNested_elseStop? (h : m.Branching) (hj : m.elseStop? i = some j) :
    i ≤ j ∧ WellNested (m.byteSlice i j) := by
  unfold elseStop? at hj
  split at hj
  · exact absurd hj nofun
  · rename_i next hnext
    split at hj
    · rename_i hword
      split at hj
      · exact absurd hj nofun
      · rename_i opened hopened
        obtain ⟨closed, hclosed, rfl⟩ := Option.map_eq_some_iff.1 hj
        obtain ⟨a, gap, c, rest, hcode, rfl, hgap, -, rfl⟩ := skipBlank?_eq_some hnext
        have hfrom : m.CodeFrom (Text.byteLength a) (gap ++ c :: rest) := ⟨a, hcode, rfl⟩
        rw [← List.append_assoc] at hcode
        rw [← Text.byteLength_append] at hword hopened
        obtain ⟨later, hlater, hends, hbegins⟩ := exists_code_of_wordAt (by decide) hcode hword
        rw [hlater] at hcode
        obtain ⟨o, ho, hbrace, hnest⟩ := h.opens.exists_block_of_else hcode hends hbegins h.continues
        obtain rfl : o = opened := Option.some.inj (ho.symm.trans hopened)
        have hle := le_of_findTopLevel? hopened
        have hlt := (lt_of_closer? hclosed).1
        rw [Text.byteLength_append] at hle hnest
        refine ⟨by omega, ?_⟩
        rw [byteSlice_append (j := Text.byteLength a + Text.byteLength gap) (by omega) (by omega),
          hfrom.byteSlice]
        refine wellNested_plain_append (all_isPlain_of_allBlank hgap) ?_
        rw [byteSlice_append hle (by omega)]
        exact hnest.append (wellNested_enclosed (d := .brace) h.nested hbrace hclosed)
    · exact absurd hj nofun

theorem chainStop_of_none (h : m.elseStop? i = none) : m.chainStop i = i := by
  rw [chainStop]
  split
  · rfl
  · rename_i hsome
    rw [h] at hsome
    exact absurd hsome nofun

theorem chainStop_of_some (h : m.elseStop? i = some j) : m.chainStop i = m.chainStop j := by
  rw [chainStop]
  split
  · rename_i hnone
    rw [h] at hnone
    exact absurd hnone nofun
  · rename_i next hnext
    obtain rfl : next = j := Option.some.inj (hnext.symm.trans h)
    rfl

/-- The branches behind a place are well nested. -/
theorem Branching.wellNested_chainStop (h : m.Branching) (i : Nat) :
    i ≤ m.chainStop i ∧ WellNested (m.byteSlice i (m.chainStop i)) := by
  induction i using Masked.chainStop.induct m with
  | case1 i hnone =>
    rw [chainStop_of_none hnone, byteSlice_self]
    exact ⟨Nat.le_refl i, rfl⟩
  | case2 i next hnext _ ih =>
    obtain ⟨hle, hnest⟩ := h.wellNested_elseStop? hnext
    obtain ⟨hlater, hnest'⟩ := ih
    rw [chainStop_of_some hnext]
    refine ⟨Nat.le_trans hle hlater, ?_⟩
    rw [byteSlice_append hle hlater]
    exact hnest.append hnest'

/-- Behind the last branch no other follows. -/
theorem elseStop?_chainStop (m : Masked) (i : Nat) : m.elseStop? (m.chainStop i) = none := by
  induction i using Masked.chainStop.induct m with
  | case1 i hnone => rw [chainStop_of_none hnone, hnone]
  | case2 i next hnext _ ih => rw [chainStop_of_some hnext, ih]

/-! ## Whole blocks -/

section Source

variable {source : List Char}

/-- A block ends behind its last branch, or with the line of that branch when only blanks follow it
there. -/
theorem Heads.stop_spec (hunsplit : Unsplit (glyphs .go source))
    (h : (ofSource .go source).Heads i opened closed b) :
    (ofSource .go source).chainStop (closed + 1) ≤ b.stop ∧
      (ofSource .go source).CutsAt ((ofSource .go source).chainStop (closed + 1)) ∧
      (ofSource .go source).CutsAt b.stop ∧
      (ofSource .go source).isBlank ((ofSource .go source).chainStop (closed + 1)) b.stop = true ∧
      (b.stop = (ofSource .go source).size ∨ ∃ k c, b.stop = k + 1 ∧
        (ofSource .go source).hasChar k c = true ∧ (c = '\x7d' ∨ c = '\n')) := by
  obtain ⟨k, hk, -, hbrace⟩ := h.exists_chainStop
  have hcut := (cutsAt_of_hasChar hbrace (by decide) (by decide)).2
  have hsize : k + 1 ≤ (ofSource .go source).size := lt_size_of_hasChar hbrace
  have hstop : b.stop = if (ofSource .go source).isBlank (k + 1)
      ((ofSource .go source).lineEnd (k + 1)) then (ofSource .go source).lineEnd (k + 1)
      else k + 1 := by
    rw [h.block, hk]
    rfl
  rw [hk, hstop]
  split
  · rename_i hblank
    obtain ⟨hle, hends⟩ := lineEnd_spec hsize
    refine ⟨hle, hcut, (separates_lineEnd hunsplit hsize).cutsAt, hblank, ?_⟩
    rcases hends with hends | ⟨n, hn, hline⟩
    · exact .inl hends
    · exact .inr ⟨n, '\n', hn, hline, .inr rfl⟩
  · exact ⟨Nat.le_refl _, hcut, hcut, isBlank_self _ _, .inr ⟨k, '\x7d', rfl, hbrace, .inl rfl⟩⟩

/-- An error block is well nested. -/
theorem Heads.wellNested (hunsplit : Unsplit (glyphs .go source))
    (hm : (ofSource .go source).Branching)
    (h : (ofSource .go source).Heads i opened closed b) :
    b.start ≤ b.stop ∧ WellNested ((ofSource .go source).byteSlice b.start b.stop) := by
  obtain ⟨hstart, hcutStart, hblankStart⟩ := h.start_spec
  obtain ⟨hstop, hcutChain, hcutStop, hblankStop, -⟩ := h.stop_spec hunsplit
  obtain ⟨hchain, hbranches⟩ := hm.wellNested_chainStop (closed + 1)
  have hfirst : (ofSource .go source).hasChar i 'i' = true :=
    hasChar_of_wordAt (k := 0) h.keyword rfl
  have hopened := le_of_findTopLevel? h.opens
  have hclosed := (lt_of_closer? h.closes).1
  have hhead : i + "if".length = i + 2 := rfl
  refine ⟨by omega, ?_⟩
  have hblank := wellNested_of_isBlank hcutStart
    (cutsAt_of_hasChar hfirst (by decide) (by decide)).1 hstart hblankStart
  have hcondition := hm.opens.wellNested_condition h.keyword h.opens
  have hbody := wellNested_enclosed (d := .brace) hm.nested (hasChar_of_findTopLevel? h.opens) h.closes
  have hrest := wellNested_of_isBlank hcutChain hcutStop hstop hblankStop
  rw [byteSlice_append hstart (by omega : i ≤ b.stop),
    byteSlice_append (by omega : i ≤ opened) (by omega : opened ≤ b.stop),
    byteSlice_append (by omega : opened ≤ closed + 1) (by omega : closed + 1 ≤ b.stop),
    byteSlice_append hchain hstop]
  exact hblank.append (hcondition.append (hbody.append (hbranches.append hrest)))

/-- No word reaches the end of an error block, unless the text ends there. -/
theorem Heads.endsNoWord_stop (hunsplit : Unsplit (glyphs .go source))
    (h : (ofSource .go source).Heads i opened closed b) {u rest : List Char}
    (hcode : mask .go source = u ++ rest) (hu : Text.byteLength u = b.stop) :
    endsNoWord u = true ∨ rest = [] := by
  obtain ⟨-, -, -, -, hsize | ⟨k, c, hk, hc, hkind⟩⟩ := h.stop_spec hunsplit
  · right
    have hlen : (ofSource .go source).size = Text.byteLength (u ++ rest) := by
      rw [← hcode]
      exact Text.length_bytes _
    rw [Text.byteLength_append] at hlen
    exact Text.byteLength_eq_zero (by omega)
  · left
    have hlast : (Text.bytes u).getLast? = some c.toUInt8 := by
      rw [← byteBefore_byteLength (m := ofSource .go source) hcode, hu, hk]
      exact hasChar_iff.1 hc
    rw [← breaksWord_getLast?, hlast]
    rcases hkind with rfl | rfl <;> rfl

/-- No `else` follows an error block. -/
theorem Heads.head?_symbols_behind (hunsplit : Unsplit (glyphs .go source))
    (hm : (ofSource .go source).Branching)
    (h : (ofSource .go source).Heads i opened closed b) {u rest : List Char}
    (hcode : mask .go source = u ++ rest) (hu : Text.byteLength u = b.stop) :
    (symbols rest).head? ≠ some elseSymbol := by
  intro helse
  obtain ⟨gap, later, rfl, hgap, hlater⟩ : ∃ gap later, rest = gap ++ (elseSymbol ++ later) ∧
      Text.allBlank gap = true ∧ beginsNoWord later = true := by
    rcases exists_symbol rest with hblank | ⟨gap, s, later, hrest, hgap, hsymbols, hkind⟩
    · rw [symbols_of_allBlank hblank] at helse
      exact absurd helse (by simp)
    · rw [hsymbols] at helse
      obtain rfl : s = elseSymbol := Option.some.inj helse
      rcases hkind with ⟨c, hc, -, -⟩ | ⟨-, -, hlater⟩
      · exact absurd (congrArg List.length hc) (by simp [elseSymbol])
      · exact ⟨gap, later, hrest, hgap, hlater⟩
  have hends : endsNoWord (u ++ gap) = true := by
    rcases h.endsNoWord_stop hunsplit hcode hu with hends | hnil
    · rw [endsNoWord_append hends]
      exact endsNoWord_of_allBlank hgap
    · exact absurd (congrArg List.length hnil) (by simp [elseSymbol])
  have hsplit : (ofSource .go source).code = u ++ gap ++ (elseSymbol ++ later) := by
    rw [code_ofSource, hcode, List.append_assoc]
  obtain ⟨o, ho, hbrace, -⟩ :=
    hm.opens.exists_block_of_else hsplit hends hlater hm.continues
  obtain ⟨j, hj⟩ := exists_closer? (d := .brace) hm.nested (hasChar_iff.1 hbrace)
  -- from the end of the last branch the search comes to this `else`
  obtain ⟨hle, ⟨-, v, w, hv, hvlen⟩, -, hblank, -⟩ := h.stop_spec hunsplit
  obtain ⟨mid, rfl, hw, hmid⟩ := Text.exists_split_of_le hv hcode (by omega)
  have hmidBlank : Text.allBlank mid = true := by
    unfold isBlank codeSlice at hblank
    rwa [← hvlen, ← hu, hmid] at hblank
  have hfrom : (ofSource .go source).CodeFrom
      ((ofSource .go source).chainStop (closed + 1)) (mid ++ gap ++ 'e' :: ("lse".toList ++ later)) :=
    ⟨v, by rw [hv, hw, List.append_assoc]; rfl, hvlen⟩
  have hskip := hfrom.skipBlank? (Text.allBlank_append.2 ⟨hmidBlank, hgap⟩) (by decide)
  have hnext : (ofSource .go source).chainStop (closed + 1) + Text.byteLength (mid ++ gap) =
      Text.byteLength (v ++ mid ++ gap) := by
    rw [← hvlen, List.append_assoc, Text.byteLength_append v]
  rw [hnext] at hskip
  have hword : (ofSource .go source).wordAt "else".toList (Text.byteLength (v ++ mid ++ gap)) = true :=
    (wordAt_iff hsplit).2 ⟨hends, hlater⟩
  have hstop := elseStop?_chainStop (ofSource .go source) (closed + 1)
  unfold elseStop? at hstop
  simp only [hskip, hword, ho, hj, if_true, Option.map_some] at hstop
  exact absurd hstop (by simp)

end Source

end Masked

end RpcBindings
