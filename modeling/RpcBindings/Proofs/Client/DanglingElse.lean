import RpcBindings.Proofs.Client.KeptCode

/-!
No `else` is left without its branches.

An `else` is bound when it stands behind the brace that closes a block and a block or another conditional
stands behind it. Cutting parts out of a text leaves every `else` bound when neither the end of the text
before a part nor the beginning of the text behind it is an `else` (`elseBound_without`). Behind an error
block no `else` is left (`Heads.head?_symbols_behind`), but one stands before it when the block is itself
an `else` branch of a conditional that is kept (`kept_else_dangles`).
-/

namespace RpcBindings

namespace Masked

/-- Every `else` among the symbols stands behind a closing brace, and before an opening one or a
conditional. -/
structure ElseBound (ss : List (List Char)) : Prop where
  first : ss.head? ≠ some elseSymbol
  behind : ss.IsChain fun s s' => s' = elseSymbol → s = ['\x7d']
  continues : ElseContinues ss

instance (ss : List (List Char)) : Decidable (ElseBound ss) :=
  decidable_of_iff (ss.head? ≠ some elseSymbol ∧
      (ss.IsChain fun s s' => s' = elseSymbol → s = ['\x7d']) ∧ ElseContinues ss)
    ⟨fun h => ⟨h.1, h.2.1, h.2.2⟩, fun h => ⟨h.first, h.behind, h.continues⟩⟩

/-! ## Symbols without a part -/

/-- A part can be cut out of a chain when its neighbours may stand next to each other. -/
theorem isChain_cut {α : Type} {R : α → α → Prop} {l r z : List α} (h : (l ++ (r ++ z)).IsChain R)
    (hborder : ∀ s ∈ l.getLast?, ∀ s' ∈ z.head?, R s s') : (l ++ z).IsChain R := by
  rw [List.isChain_append] at h ⊢
  exact ⟨h.1, (List.isChain_append.1 h.2.1).2.1, hborder⟩

/-- Every `else` stays bound when a part is cut out that neither stands behind an `else` nor before
one. -/
theorem ElseBound.cut {l r z : List (List Char)} (h : ElseBound (l ++ (r ++ z)))
    (hl : l.getLast? ≠ some elseSymbol) (hz : z.head? ≠ some elseSymbol) : ElseBound (l ++ z) where
  first := by
    rw [List.head?_append]
    cases l with
    | nil => exact hz
    | cons s l => exact h.first
  behind := isChain_cut h.behind fun _ _ s' hs' helse =>
    absurd (Option.mem_def.1 hs') (helse ▸ hz)
  continues := by
    refine ⟨fun hlast => ?_, isChain_cut h.continues.chain fun s hs _ _ helse =>
      absurd (Option.mem_def.1 hs) (helse ▸ hl)⟩
    cases hz' : z.getLast? with
    | none =>
      rw [List.getLast?_eq_none_iff.1 hz', List.append_nil] at hlast
      exact hl hlast
    | some s =>
      rw [List.getLast?_append, hz', Option.some_or] at hlast
      refine h.continues.last ?_
      rw [List.getLast?_append, List.getLast?_append, hz', Option.some_or, Option.some_or]
      exact hlast

/-- Neither a word nor an `else` reaches over the ends of the part. -/
structure PartsSymbols (m : Masked) (b : Span) : Prop where
  before : ∀ ⦃u v : List Char⦄, m.code = u ++ v → Text.byteLength u = b.start →
    endsNoWord u = true ∧ (symbols u).getLast? ≠ some elseSymbol
  behind : ∀ ⦃u v : List Char⦄, m.code = u ++ v → Text.byteLength u = b.stop →
    (endsNoWord u = true ∨ v = []) ∧ (symbols v).head? ≠ some elseSymbol

/-- Every `else` stays bound in the text without some parts. The list `p` holds the symbols that are kept
of the text before the offset. -/
theorem elseBound_without {m : Masked} {start : Nat} {a rest : List Char} {ss : List Span}
    {p : List (List Char)} (hcode : m.code = a ++ rest) (ha : Text.byteLength a = start)
    (hparts : m.PartsFrom start ss) (hss : ∀ s ∈ ss, m.PartsSymbols s)
    (hends : endsNoWord a = true ∨ rest = []) (hp : p.getLast? ≠ some elseSymbol)
    (h : ElseBound (p ++ symbols rest)) :
    ElseBound (p ++ symbols (Client.without m.code start ss)) := by
  induction ss generalizing start a rest p with
  | nil =>
    rwa [Client.without, hcode, ← ha, Text.dropBytes_append]
  | cons s ss ih =>
    obtain ⟨x, y, z, rfl, hstart, hstop, hwithout, -⟩ := exists_parts hcode ha hparts
    have hborder := hss s List.mem_cons_self
    obtain ⟨hx, hlast⟩ := hborder.before (v := y ++ z) (by rw [hcode]; simp) hstart
    obtain ⟨hy, hz⟩ := hborder.behind (v := z) (by rw [hcode]; simp) hstop
    have hx := endsNoWord_of_append hx
    have hsymbols : symbols (x ++ (y ++ z)) = symbols x ++ (symbols y ++ symbols z) := by
      rw [symbols_append (.inl hx), symbols_append (hy.imp endsNoWord_of_append fun h => by rw [h]; rfl)]
    -- what is kept ends in no `else`, also when it ends before an earlier part
    have hkept : (p ++ symbols x).getLast? ≠ some elseSymbol := by
      cases hsx : symbols x with
      | nil => rwa [List.append_nil]
      | cons w ws =>
        have hne : x ≠ [] := by
          rintro rfl
          exact absurd hsx.symm (List.cons_ne_nil w ws)
        have ha := hends.resolve_right fun h => hne (List.append_eq_nil_iff.1 h).1
        rw [symbols_append (.inl ha), hsx,
          List.getLast?_append_of_ne_nil _ (List.cons_ne_nil w ws)] at hlast
        rwa [List.getLast?_append_of_ne_nil _ (List.cons_ne_nil w ws)]
    rw [hsymbols, ← List.append_assoc] at h
    rw [hwithout, symbols_append (.inl hx), ← List.append_assoc]
    exact ih (a := a ++ x ++ y) (by rw [hcode]; simp) hstop hparts.2.2.2.2
      (fun s' hs => hss s' (List.mem_cons_of_mem s hs)) hy hkept (h.cut hkept hz)

/-! ## Error blocks -/

section Kept

variable {t : List Char} {i opened closed : Nat} {b : Span}

/-- No word reaches the start of an error block. -/
theorem Heads.endsNoWord_start {m : Masked} (h : m.Heads i opened closed b) {u v : List Char}
    (hcode : m.code = u ++ v) (hu : Text.byteLength u = b.start) : endsNoWord u = true := by
  rw [← breaksWord_getLast?, ← byteBefore_byteLength hcode, hu, h.block]
  unfold widen
  dsimp only
  split
  · exact (isLineStart_lineStart m i).breaksWord
  · have hword := h.keyword
    unfold wordAt wordHere at hword
    rw [Bool.and_eq_true, Bool.and_eq_true] at hword
    exact hword.1.2

theorem Heads.partsSymbols (ht : Unsplit (glyphs .go t)) (hm : (ofSource .go t).Branching)
    (h : (ofSource .go t).Heads i opened closed b)
    (hfree : (symbols ((ofSource .go t).codeSlice 0 b.start)).getLast? ≠ some elseSymbol) :
    (ofSource .go t).PartsSymbols b where
  before u v hcode hu := by
    refine ⟨h.endsNoWord_start hcode hu, ?_⟩
    have hslice : (ofSource .go t).codeSlice 0 b.start = u := by
      unfold codeSlice
      rw [hcode, ← hu]
      simpa [Text.byteLength_nil] using Text.cut_append [] u v
    rwa [hslice] at hfree
  behind u v hcode hu := ⟨h.endsNoWord_stop ht hcode hu, h.head?_symbols_behind ht hm hcode hu⟩

/-- The statements that are kept of a lexically closed text with well-nested delimiters bind every `else`
that they hold, as the text does: when every conditional has its block, no error block is an `else`
branch itself, each is cut out in code, and the rest can be laid out anew. -/
theorem kept_else_bound (ht : LexicallyClosed t) (hnested : WellNested (ofSource .go t).bytes)
    (hopens : (ofSource .go t).IfsOpen) (hbound : ElseBound (symbols (mask .go t)))
    (hfree : ∀ s ∈ (ofSource .go t).errorBlocks,
      (symbols ((ofSource .go t).codeSlice 0 s.start)).getLast? ≠ some elseSymbol)
    (hcuts : ∀ s ∈ (ofSource .go t).errorBlocks, (ofSource .go t).CutsCode s)
    (hlaid : ¬Text.Ragged (Client.without t 0 (ofSource .go t).errorBlocks)) :
    ∃ kept, Client.keptStatements? t = some kept ∧ ElseBound (symbols (mask .go kept)) := by
  obtain ⟨kept, hkept, -, -, hsymbols⟩ := exists_kept ht hcuts hlaid
  refine ⟨kept, hkept, ?_⟩
  rw [hsymbols]
  have hm : (ofSource .go t).Branching := ⟨hnested, hopens, hbound.continues⟩
  refine elseBound_without (m := ofSource .go t) (a := []) (p := []) rfl rfl
    (parts_errorBlocks ht.unsplit) (fun s hs => ?_) (.inl rfl) nofun hbound
  obtain ⟨i, opened, closed, hheads⟩ := exists_heads hs
  exact hheads.partsSymbols ht.unsplit hm (hfree s hs)

/-- A conditional with other branches that is kept, and an error block inside it that is not. -/
def testedBranch : List Char :=
  ("if a \x7b\n\tif err != nil \x7b\n\t\x7d else \x7b\n\t\x7d\n" ++
    "\x7d else if b \x7b\n\x7d else \x7b\n\tc()\n\x7d\n").toList

theorem kept_else_bound_testedBranch :
    (ofSource .go testedBranch).errorBlocks ≠ [] ∧
      ∃ kept, Client.keptStatements? testedBranch = some kept ∧
        ElseBound (symbols (mask .go kept)) :=
  ⟨by decide +kernel, kept_else_bound (by decide +kernel) (by decide +kernel) (by decide +kernel)
    (by decide +kernel) (by decide +kernel) (by decide +kernel)
    (mt Text.tidy?_eq_none_iff.2 (by decide +kernel))⟩

/-- A conditional whose other branch tests for an error. -/
def testedElse : List Char :=
  "if a \x7b\n\tb()\n\x7d else if err != nil \x7b\n\treturn\n\x7d\n".toList

/-- The branch is removed, and its `else` is kept. -/
theorem kept_else_dangles :
    LexicallyClosed testedElse ∧ WellNested (ofSource .go testedElse).bytes ∧
      ElseBound (symbols (mask .go testedElse)) ∧
      Client.keptStatements? testedElse = some "if a \x7b\n\tb()\n\x7d else".toList ∧
      ¬ElseBound (symbols (mask .go "if a \x7b\n\tb()\n\x7d else".toList)) := by
  refine ⟨?_, ?_, ?_, ?_, ?_⟩ <;> decide +kernel

end Kept

end Masked

end RpcBindings
