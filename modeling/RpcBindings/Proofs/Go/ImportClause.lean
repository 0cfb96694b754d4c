import RpcBindings.Go.ImportClause
import RpcBindings.Proofs.Masked.Found

/-!
Reading import clauses.

A clause begins and ends where the source can be cut, unless the last character of the source has
several bytes and is torn. So the imports of a source that leaves no literal open can be read
(`exists_imports?`).
-/

namespace RpcBindings.Masked

variable {source : List Char}

theorem exists_lineStop (m : Masked) (i : Nat) (hi : i ≤ m.size) :
    m.lineStop i = m.size ∨ m.bytes[m.lineStop i]? = some '\n'.toUInt8 := by
  have hsplit := List.takeWhile_append_dropWhile (p := (· != '\n'.toUInt8)) (l := m.bytes.drop i)
  unfold lineStop
  cases hrest : (m.bytes.drop i).dropWhile (· != '\n'.toUInt8) with
  | nil =>
    rw [hrest, List.append_nil] at hsplit
    rw [hsplit, List.length_drop]
    unfold size at hi ⊢
    omega
  | cons b rest =>
    have hb : b = '\n'.toUInt8 := by
      have := List.head?_dropWhile_not (· != '\n'.toUInt8) (m.bytes.drop i)
      simpa [hrest] using this
    rw [hrest, hb] at hsplit
    refine .inr ?_
    rw [← List.getElem?_drop]
    generalize (m.bytes.drop i).takeWhile (· != '\n'.toUInt8) = line at hsplit
    rw [← hsplit, List.getElem?_append_right (Nat.le_refl _), Nat.sub_self]
    rfl

/-- Where blanks end the source can be cut. -/
theorem cutsAt_skipBlank? (h : Unsplit (glyphs .go source)) {i j : Nat}
    (hj : (ofSource .go source).skipBlank? i = some j) : (ofSource .go source).CutsAt j := by
  obtain ⟨a, blank, c, rest, hcode, rfl, -, hc, rfl⟩ := skipBlank?_eq_some hj
  have hspace : c ≠ ' ' := by
    rintro rfl
    exact absurd hc (by decide)
  have hcode : mask .go source = a ++ blank ++ c :: rest := by
    rw [List.append_assoc]
    exact hcode
  have := (cutsAt_of_code_eq hcode (.inl h) hspace).1
  rwa [Text.byteLength_append] at this

/-- The text of a clause can be cut out. -/
theorem cutsAt_clauseAfter? (h : Unsplit (glyphs .go source)) {i : Nat} {s : Span}
    (hs : (ofSource .go source).clauseAfter? i = some s) :
    (ofSource .go source).CutsAt s.start ∧ (ofSource .go source).CutsAt s.stop ∧
      s.start ≤ s.stop := by
  unfold clauseAfter? at hs
  split at hs
  · simp at hs
  · rename_i start hstart
    split at hs
    · rename_i hopener
      obtain ⟨stop, hstop, rfl⟩ := Option.map_eq_some_iff.1 hs
      have hcloser := hasChar_closer (d := .paren) hopener hstop
      exact ⟨(cutsAt_of_hasChar hopener (by decide) (by decide)).2,
        (cutsAt_of_hasChar hcloser (by decide) (by decide)).1, (lt_of_closer? hstop).1⟩
    · obtain rfl := Option.some.inj hs
      have hcut := cutsAt_skipBlank? h hstart
      have hsize : start ≤ (ofSource .go source).size := by
        obtain ⟨-, a, b, hcode, rfl⟩ := hcut
        show _ ≤ (Text.bytes (mask .go source)).length
        rw [show mask .go source = a ++ b from hcode, Text.length_bytes, Text.byteLength_append]
        omega
      refine ⟨hcut, ?_, Nat.le_add_right _ _⟩
      rcases exists_lineStop (ofSource .go source) start hsize with hend | hline
      · show (ofSource .go source).CutsAt ((ofSource .go source).lineStop start)
        rw [hend]
        exact h.cutsAt_size
      · exact (cutsAt_of_byte hline (by decide) (by decide)).1

theorem exists_importsFrom? (h : Unsplit (glyphs .go source)) (starts : List Nat) (start : Nat) :
    ∃ is, (ofSource .go source).importsFrom? starts start = some is := by
  induction starts generalizing start with
  | nil => exact ⟨[], rfl⟩
  | cons i starts ih =>
    unfold importsFrom?
    split
    · exact ih start
    · extract_lets head
      split
      · split
        · exact ⟨[], rfl⟩
        · rename_i clause hclause
          obtain ⟨hstart, hstop, hle⟩ := cutsAt_clauseAfter? h hclause
          obtain ⟨text, htext⟩ := exists_cut? hstart hstop hle
          obtain ⟨is, his⟩ := ih clause.stop
          refine ⟨clauseImports text ++ is, ?_⟩
          rw [htext]
          simp only [his, Option.map_some]
      · exact ih head

/-- The imports of a source can be read when none of its characters of several bytes is torn. -/
theorem exists_imports? (h : Unsplit (glyphs .go source)) :
    ∃ is, (ofSource .go source).imports? = some is :=
  exists_importsFrom? h _ 0

end RpcBindings.Masked
