import RpcBindings.Proofs.Go.ImportClause
import RpcBindings.Proofs.Masked.Append
import RpcBindings.Proofs.Text.Cut

/-!
Which import clauses cannot be cut out.

The masked copy of a source is never shorter (`sourceSize_le_size`), and it is longer when a character
of several bytes is torn. A clause that runs to the end of the masked copy then ends behind the source.
Main statement: that is the only reason why the imports of a source cannot be read
(`imports?_eq_none_iff`).
-/

namespace RpcBindings

/-- No character loses bytes in the masked copy. -/
theorem Glyph.le_byteLength_code (g : Glyph) : g.char.utf8Size ≤ Text.byteLength g.code := by
  by_cases htorn : g.mark = .torn
  · unfold code
    rw [htorn]
    show _ ≤ Text.byteLength (remnant g.char)
    unfold remnant
    split
    · exact Nat.le_add_right _ _
    · rw [Text.byteLength_append, ← Text.length_bytes, Glyph.bytes_replicate_space,
        List.length_replicate]
      show _ ≤ g.char.utf8Size - 1 + 3
      omega
  · rw [byteLength_code htorn]

namespace Masked

variable {source : List Char} {i j : Nat}

theorem le_byteLength_showGlyphs (gs : List Glyph) :
    Text.byteLength (gs.map (·.char)) ≤ Text.byteLength (showGlyphs gs) := by
  induction gs with
  | nil => exact Nat.le_refl 0
  | cons g gs ih =>
    rw [showGlyphs_cons, Text.byteLength_append, List.map_cons, Text.byteLength_cons]
    have := g.le_byteLength_code
    omega

/-- The masked copy of a source has at least the bytes of the source. -/
theorem sourceSize_le_size (lang : SourceLang) (source : List Char) :
    (ofSource lang source).sourceSize ≤ (ofSource lang source).size := by
  have := le_byteLength_showGlyphs (glyphs lang source)
  rw [map_char_glyphs] at this
  unfold size
  rw [bytes_ofSource, Text.length_bytes]
  exact this

/-- Before the last line feed no character is torn, so the source can be cut where blanks end. -/
theorem cutsAt_skipBlank?_of_newline (hj : (ofSource .go source).skipBlank? i = some j)
    {k : Nat} (hjk : j ≤ k) (hk : (ofSource .go source).bytes[k]? = some '\n'.toUInt8) :
    (ofSource .go source).CutsAt j := by
  rcases Nat.eq_or_lt_of_le hjk with rfl | hlt
  · exact (cutsAt_of_byte hk (by decide) (by decide)).1
  obtain ⟨a, blank, c, rest, hcode, rfl, -, hc, rfl⟩ := skipBlank?_eq_some hj
  obtain ⟨x, d, y, hline, hx, hd, hdc⟩ := Text.exists_split_of_ascii hk (by decide)
  obtain rfl := Text.eq_of_toUInt8_eq hd (by decide) hdc
  have hcode : mask .go source = (a ++ blank) ++ c :: rest := by
    rw [List.append_assoc]
    exact hcode
  obtain ⟨before, g, after, hgs, hshow, -, -⟩ :=
    exists_glyph_of_showGlyphs_eq hline (.inr hd) (by decide)
  have hwhole : Whole before := whole_of_glyphsFrom_eq hgs
  rw [← Text.byteLength_append] at hlt ⊢
  obtain ⟨mid, hmid, hrest, -⟩ := Text.exists_split_of_le hcode hline (by omega)
  cases mid with
  | nil =>
    rw [hmid, List.append_nil] at hx
    omega
  | cons e mid =>
    obtain ⟨rfl, -⟩ := List.cons.inj hrest
    have hspace : c ≠ ' ' := by
      rintro rfl
      exact absurd hc (by decide)
    obtain ⟨first, g', later, rfl, hfirst, -, -⟩ :=
      exists_glyph_of_showGlyphs_eq (hshow.trans hmid) (.inl hwhole.unsplit) hspace
    have hlen := byteLength_showGlyphs
      (show Whole first from fun x hx => hwhole x (List.mem_append_left _ hx))
    refine ⟨⟨first.map (·.char), (g' :: later ++ g :: after).map (·.char), ?_, ?_⟩, _, _, hcode, rfl⟩
    · show source = _
      rw [← map_char_glyphs .go source, ← List.map_append]
      exact congrArg (List.map (·.char)) (hgs.trans (List.append_assoc _ _ _))
    · rw [← hlen, hfirst]

/-! ## Clauses -/

/-- A clause is cut out unless it ends behind the source. -/
theorem exists_cut?_clause {s : Span} (hs : (ofSource .go source).clauseAfter? i = some s) :
    (∃ text, Text.cut? s.start s.stop source = some text) ↔
      s.stop ≤ (ofSource .go source).sourceSize := by
  refine ⟨fun ⟨text, htext⟩ => Text.le_byteLength_of_cut? htext, fun hle => ?_⟩
  have hclause := hs
  unfold clauseAfter? at hs
  split at hs
  · exact absurd hs nofun
  · rename_i start hstart
    split at hs
    · rename_i hopener
      obtain ⟨stop, hstop, rfl⟩ := Option.map_eq_some_iff.1 hs
      have hcloser := hasChar_closer (d := .paren) hopener hstop
      exact exists_cut? (cutsAt_of_hasChar hopener (by decide) (by decide)).2
        (cutsAt_of_hasChar hcloser (by decide) (by decide)).1 (lt_of_closer? hstop).1
    · obtain rfl := Option.some.inj hs
      have hsize : start ≤ (ofSource .go source).size := by
        obtain ⟨a, blank, c, rest, hcode, rfl, -, -, rfl⟩ := skipBlank?_eq_some hstart
        rw [← byteLength_code, hcode]
        simp only [Text.byteLength_append]
        omega
      rcases exists_lineStop (ofSource .go source) start hsize with hend | hline
      · -- a copy that does not go on behind the source tears nothing
        have hunsplit : Unsplit (glyphs .go source) := by
          refine unsplit_of_byteLength_eq ?_
          have hleast := sourceSize_le_size .go source
          have hmost : (ofSource .go source).size ≤ (ofSource .go source).sourceSize := hend ▸ hle
          rw [← byteLength_code] at hleast hmost
          exact Nat.le_antisymm hmost hleast
        obtain ⟨hfirst, hlast, hordered⟩ := cutsAt_clauseAfter? hunsplit hclause
        exact exists_cut? hfirst hlast hordered
      · exact exists_cut? (cutsAt_skipBlank?_of_newline hstart (Nat.le_add_right _ _) hline)
          (cutsAt_of_byte hline (by decide) (by decide)).1 (Nat.le_add_right _ _)

/-- The clauses that are read among some places of `import`, those before an offset left out. -/
def clausesFrom (m : Masked) : List Nat → Nat → List Span
  | [], _ => []
  | i :: rest, start =>
    if i < start then m.clausesFrom rest start
    else
      let head := i + "import".length
      if m.beginsLine i then
        match m.clauseAfter? head with
        | none => []
        | some clause => clause :: m.clausesFrom rest clause.stop
      else m.clausesFrom rest head

/-- The import clauses of a file, in order. -/
def importClauses (m : Masked) : List Span :=
  m.clausesFrom (m.wordStarts "import") 0

/-- The imports can be read when every clause can be cut out. -/
theorem isSome_importsFrom? (m : Masked) (places : List Nat) (start : Nat) :
    (m.importsFrom? places start).isSome = true ↔
      ∀ s ∈ m.clausesFrom places start, ∃ text, Text.cut? s.start s.stop m.source = some text := by
  induction places generalizing start with
  | nil => exact ⟨fun _ _ h => absurd h List.not_mem_nil, fun _ => rfl⟩
  | cons i places ih =>
    rw [importsFrom?, clausesFrom]
    split
    · exact ih start
    · extract_lets head
      split
      · cases m.clauseAfter? head with
        | none => exact ⟨fun _ _ h => absurd h List.not_mem_nil, fun _ => rfl⟩
        | some clause =>
          simp only [List.forall_mem_cons, ← ih]
          cases Text.cut? clause.start clause.stop m.source with
          | none => exact ⟨fun h => absurd h (by simp), fun h => absurd h.1 (by simp)⟩
          | some text => simp
      · exact ih head

theorem exists_clauseAfter?_of_mem {m : Masked} {places : List Nat} {start : Nat} {s : Span}
    (h : s ∈ m.clausesFrom places start) : ∃ i, m.clauseAfter? i = some s := by
  induction places generalizing start with
  | nil => exact absurd h List.not_mem_nil
  | cons i places ih =>
    rw [clausesFrom] at h
    split at h
    · exact ih h
    · extract_lets head at h
      split at h
      · split at h
        · exact absurd h List.not_mem_nil
        · rename_i clause hclause
          rcases List.mem_cons.1 h with rfl | h
          · exact ⟨head, hclause⟩
          · exact ih h
      · exact ih h

/-- The imports of a source cannot be read exactly when one of its clauses ends behind it. -/
theorem imports?_eq_none_iff (source : List Char) :
    (ofSource .go source).imports? = none ↔
      ∃ s ∈ (ofSource .go source).importClauses, (ofSource .go source).sourceSize < s.stop := by
  have hsome := isSome_importsFrom? (ofSource .go source) ((ofSource .go source).wordStarts "import") 0
  rw [← Option.not_isSome_iff_eq_none]
  show ¬((ofSource .go source).importsFrom? _ 0).isSome = true ↔ _
  rw [hsome]
  simp only [not_forall, exists_prop]
  refine exists_congr fun s => and_congr_right fun hs => ?_
  obtain ⟨i, hi⟩ := exists_clauseAfter?_of_mem hs
  exact (not_congr (exists_cut?_clause hi)).trans Nat.not_le

end Masked

end RpcBindings
