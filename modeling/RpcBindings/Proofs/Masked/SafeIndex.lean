import RpcBindings.Proofs.Masked.Line
import RpcBindings.Proofs.Masked.Splitting
import RpcBindings.Proofs.Masked.WordSearch

/-!
Offsets at which a source can be cut.

The masked copy of a source shows spaces inside characters of several bytes, and it is longer than the
source when its last character is torn. A search that ends on an ASCII byte other than a space ends
between two characters of both texts all the same (`safeIndices_ofSource`). A search for a space need not
(`searches_unsafe`).
-/

namespace RpcBindings.Masked

variable {m : Masked} {lang : SourceLang} {source : List Char} {start stop i j : Nat}

/-! ## Bytes of code -/

theorem cutsAt_of_closer? (h : (ofSource lang source).closer? i = some j) :
    (ofSource lang source).CutsAt j ∧ (ofSource lang source).CutsAt (j + 1) := by
  obtain ⟨d, -, hd⟩ := closer?_eq_some h
  exact cutsAt_of_byte hd (by cases d <;> decide) (by cases d <;> decide)

theorem cutsAt_of_findTopLevel? {c : Char} (hc : c.utf8Size = 1) (hspace : c ≠ ' ')
    (h : (ofSource lang source).findTopLevel? start stop c = some j) :
    (ofSource lang source).CutsAt j ∧ (ofSource lang source).CutsAt (j + 1) :=
  cutsAt_of_hasChar (hasChar_of_findTopLevel? h) hc hspace

theorem cutsAt_of_standsAlone {c : Char} {cs : List Char} (hc : c.utf8Size = 1) (hspace : c ≠ ' ')
    (h : (ofSource lang source).StandsAlone (c :: cs) i) : (ofSource lang source).CutsAt i := by
  have hfirst := h.here 0 c.toUInt8 (by rw [Text.bytes_cons_of_narrow hc]; rfl)
  exact (cutsAt_of_hasChar (hasChar_iff.2 hfirst) hc hspace).1

/-- Both ends of a name are offsets at which the source can be cut. -/
theorem cutsAt_of_identAt? {s : Span} (h : (ofSource lang source).identAt? i = some s) :
    (ofSource lang source).CutsAt s.start ∧ (ofSource lang source).CutsAt s.stop ∧
      s.start ≤ s.stop := by
  obtain ⟨hstart, hlt, ⟨b, hb, hbegins⟩, b', hb', hends⟩ := identAt?_eq_some h
  obtain ⟨hlow, hspace⟩ := lt_of_isWordByte (isWordByte_of_isWordStart hbegins)
  obtain ⟨hlow', hspace'⟩ := lt_of_isWordByte hends
  have hstop := (cutsAt_of_byte hb' hlow' hspace').2
  rw [Nat.sub_add_cancel (by omega)] at hstop
  exact ⟨hstart ▸ (cutsAt_of_byte hb hlow hspace).1, hstop, by omega⟩

/-! ## Pieces -/

theorem CutsAt.le_size (h : m.CutsAt i) : i ≤ m.size :=
  le_size_of_isBoundary h.2

theorem cutsAt_of_mem_splitTopLevel {sep : Char} {p : Span} (hsep : sep.utf8Size = 1)
    (hspace : sep ≠ ' ') (hstart : (ofSource lang source).CutsAt start)
    (hstop : (ofSource lang source).CutsAt stop) (hle : start ≤ stop)
    (hp : p ∈ (ofSource lang source).splitTopLevel start stop sep) :
    (ofSource lang source).CutsAt p.start ∧ (ofSource lang source).CutsAt p.stop ∧
      p.start ≤ p.stop :=
  (laidOut_splitTopLevel sep hle hstop.le_size).forall_ends
    (fun _ _ _ hend => cutsAt_of_hasChar (hasChar_of_endsAt hend) hsep hspace) hstart hstop p hp

/-- Behind the end of a statement the source can be cut. -/
theorem cutsAt_of_endsStatement (h : (ofSource lang source).EndsAt endsStatement i j) :
    (ofSource lang source).CutsAt (j + 1) := by
  obtain ⟨b, hb, hends⟩ := h
  unfold endsStatement at hends
  simp only [Bool.or_eq_true, Bool.and_eq_true, decide_eq_true_eq] at hends
  rcases hends with ⟨rfl, -⟩ | ⟨rfl, -⟩ <;> exact (cutsAt_of_byte hb (by decide) (by decide)).2

theorem cutsAt_of_mem_splitStatements {p : Span} (hstart : (ofSource lang source).CutsAt start)
    (hstop : (ofSource lang source).CutsAt stop) (hle : start ≤ stop)
    (hp : p ∈ (ofSource lang source).splitStatements start stop) :
    (ofSource lang source).CutsAt p.start ∧ (ofSource lang source).CutsAt p.stop ∧
      p.start ≤ p.stop :=
  (laidOut_splitStatements hle hstop.le_size).forall_ends
    (fun _ _ _ hend => ⟨cutsAt_of_endsStatement hend, cutsAt_of_endsStatement hend⟩) hstart hstop p hp

/-! ## All searches -/

/-- The offset lies in the source, between two of its characters and two of its masked copy. -/
structure IsSafe (m : Masked) (i : Nat) : Prop where
  le_sourceSize : i ≤ m.sourceSize
  source : Text.IsBoundary m.source i
  code : Text.IsBoundary m.code i

theorem CutsAt.isSafe (h : m.CutsAt i) : m.IsSafe i :=
  ⟨h.le_sourceSize, h.1, h.2⟩

/-- Every search in a masked text ends at a safe offset, and so does every piece of a split. -/
structure SafeIndices (m : Masked) : Prop where
  word (word : List Char) (start p : Nat) : word ≠ [] → (∀ c ∈ word, c.utf8Size = 1) →
    word.head? ≠ some ' ' → m.CutsAt start → m.findWord word start = some p → m.IsSafe p
  closer (i j : Nat) : m.closer? i = some j → m.IsSafe j
  topLevel (start stop j : Nat) (c : Char) : c.utf8Size = 1 → c ≠ ' ' →
    m.findTopLevel? start stop c = some j → m.IsSafe j
  lineStart (i : Nat) : m.IsSafe (m.lineStart i)
  decorationStart (i : Nat) : m.IsSafe (m.decorationStart i)
  pieces (start stop : Nat) (sep : Char) : sep.utf8Size = 1 → sep ≠ ' ' → m.CutsAt start →
    m.CutsAt stop → start ≤ stop → ∀ p ∈ m.splitTopLevel start stop sep,
      m.IsSafe p.start ∧ m.IsSafe p.stop ∧ p.start ≤ p.stop
  statements (start stop : Nat) : m.CutsAt start → m.CutsAt stop → start ≤ stop →
    ∀ p ∈ m.splitStatements start stop, m.IsSafe p.start ∧ m.IsSafe p.stop ∧ p.start ≤ p.stop

theorem safeIndices_ofSource (lang : SourceLang) (source : List Char) :
    (ofSource lang source).SafeIndices where
  word word start p hne hword hspace hstart hp := by
    have halone := standsAlone_of_findWord hne hword hstart.2 hp
    cases word with
    | nil => exact absurd rfl hne
    | cons c cs =>
      have hc : c ≠ ' ' := fun heq => hspace (congrArg some heq)
      exact (cutsAt_of_standsAlone (hword c List.mem_cons_self) hc halone).isSafe
  closer i j h := (cutsAt_of_closer? h).1.isSafe
  topLevel start stop j c hc hspace h := (cutsAt_of_findTopLevel? hc hspace h).1.isSafe
  lineStart i := (isLineStart_lineStart _ i).cutsAt.isSafe
  decorationStart i := (isLineStart_decorationFrom (isLineStart_lineStart _ i)).cutsAt.isSafe
  pieces start stop sep hsep hspace hstart hstop hle p hp := by
    obtain ⟨hfrom, hto, hle'⟩ := cutsAt_of_mem_splitTopLevel hsep hspace hstart hstop hle hp
    exact ⟨hfrom.isSafe, hto.isSafe, hle'⟩
  statements start stop hstart hstop hle p hp := by
    obtain ⟨hfrom, hto, hle'⟩ := cutsAt_of_mem_splitStatements hstart hstop hle hp
    exact ⟨hfrom.isSafe, hto.isSafe, hle'⟩

/-- A literal that holds a letter of two bytes. -/
def quotedLetter : Masked :=
  .ofSource .rust "\"é\"".toList

/-- The same literal without its end. Its masked copy is longer. -/
def tornLetter : Masked :=
  .ofSource .rust "\"é".toList

/-- A search for a word that begins with a space, and a split at spaces or at the second byte of a letter,
can end inside a character; and statements that are split behind the source end there. -/
theorem searches_unsafe :
    (quotedLetter.CutsAt 0 ∧ quotedLetter.findWord " \"".toList 0 = some 2 ∧ ¬quotedLetter.IsSafe 2) ∧
      (quotedLetter.CutsAt quotedLetter.size ∧
        quotedLetter.splitTopLevel 0 quotedLetter.size ' ' = [⟨0, 1⟩, ⟨2, 2⟩, ⟨3, 4⟩]) ∧
      (tornLetter.CutsAt 0 ∧ tornLetter.splitStatements 0 tornLetter.size = [⟨0, 5⟩] ∧
        ¬tornLetter.IsSafe 5) ∧
      ((ofSource .rust ['é']).CutsAt 2 ∧ (ofSource .rust ['é']).splitTopLevel 0 2 '\u00a9' = [⟨0, 1⟩] ∧
        ¬(ofSource .rust ['é']).IsSafe 1) := by
  have hquoted : ¬Text.IsBoundary quotedLetter.source 2 := by decide +kernel
  have htorn : ¬Text.IsBoundary tornLetter.source 5 := by decide +kernel
  have hletter : ¬Text.IsBoundary ['é'] 1 := by decide +kernel
  exact ⟨⟨cutsAt_zero _, by decide +kernel, fun h => hquoted h.source⟩,
    ⟨by decide +kernel, by decide +kernel⟩,
    ⟨cutsAt_zero _, by decide +kernel, fun h => htorn h.source⟩,
    ⟨by decide +kernel, by decide +kernel, fun h => hletter h.source⟩⟩

end RpcBindings.Masked
