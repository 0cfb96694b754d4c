import RpcBindings.Proofs.Client.ErrorBlock
import RpcBindings.Proofs.Client.Symbol

/-!
Which conditionals are error blocks.

A conditional heads an error block when its condition tests for an error, and that is a question of the
condition's text: `testsError_iff` says which texts do. The text is read by its ASCII words, so a field
`err` and a name that begins with `nil` pass for the variable and for `nil` (`removed_other_tests`).
Main statement: where the words of a condition are whole names, only a comparison of the variable `err`
with `nil` is removed (`removed_tests_variable`).
-/

namespace RpcBindings

namespace Client

open Masked

/-! ## Conditions -/

/-- The condition compares the word `err` with what begins as `nil` does. The word shows, and only blanks
stand on both sides of the operator. -/
def ComparesErr (condition : List Char) : Prop :=
  ∃ before gap gap' after, condition = before ++ ("err".toList ++
      (gap ++ ("!=".toList ++ (gap' ++ ("nil".toList ++ after))))) ∧
    Text.allBlank gap = true ∧ Text.allBlank gap' = true ∧
    (ofSource .go condition).wordAt "err".toList (Text.byteLength before) = true

/-- The condition tests for an error. -/
def TestsError (condition : List Char) : Prop :=
  ComparesErr condition ∨ "ok, code :=".toList <+: condition

theorem comparesErr_iff {condition : List Char} :
    comparesErr condition = true ↔ ComparesErr condition := by
  have hcode : ∀ c ∈ "err".toList, isCodeChar c = true := by decide
  have hblank (gap : List Char) (h : Text.allBlank gap = true) (c : Char) (rest : List Char)
      (hc : Text.isBlank c = false) : Text.trimStart (gap ++ c :: rest) = c :: rest :=
    Text.trimStart_append h hc rest
  unfold comparesErr
  rw [List.any_eq_true]
  constructor
  · rintro ⟨i, hi, h⟩
    obtain ⟨-, hword⟩ := mem_wordStarts.1 hi
    obtain ⟨after, ⟨before, hsource, rfl⟩, -⟩ := @textFrom_of_wordAt _ _ ['r'] _ _ hword hcode
    have hsource : condition = before ++ ("err".toList ++ after) := hsource
    have hdrop : Text.dropBytes (Text.byteLength before + "err".length) condition = after := by
      have := Text.dropBytes_append (before ++ "err".toList) after
      rwa [Text.byteLength_append, List.append_assoc, ← hsource] at this
    extract_lets rest at h
    split at h
    · rename_i other hother
      obtain ⟨gap, hgap, hgapBlank⟩ := Text.exists_trimStart after
      obtain ⟨gap', hgap', hgapBlank'⟩ := Text.exists_trimStart other
      obtain ⟨later, hlater⟩ := List.isPrefixOf_iff_prefix.1 h
      have hrest : rest = after := hdrop
      rw [hrest] at hother
      refine ⟨before, gap, gap', later, ?_, hgapBlank, hgapBlank', hword⟩
      rw [hlater, ← hgap']
      have := Text.eq_append_of_stripPrefix? hother
      show _ = before ++ ("err".toList ++ (gap ++ (['!', '='] ++ other)))
      rw [← this, ← hgap]
      exact hsource
    · exact absurd h (by decide)
  · rintro ⟨before, gap, gap', after, hsource, hgap, hgap', hword⟩
    refine ⟨Text.byteLength before, mem_wordStarts.2 ⟨?_, hword⟩, ?_⟩
    · exact lt_size_of_hasChar (hasChar_of_wordAt (k := 0) (c := 'e') hword rfl)
    · have hdrop : Text.dropBytes (Text.byteLength before + "err".length) condition =
          gap ++ '!' :: '=' :: (gap' ++ 'n' :: 'i' :: 'l' :: after) := by
        have := Text.dropBytes_append (before ++ "err".toList)
          (gap ++ '!' :: '=' :: (gap' ++ 'n' :: 'i' :: 'l' :: after))
        rw [Text.byteLength_append, List.append_assoc] at this
        rw [hsource]
        exact this
      simp only [hdrop, hblank gap hgap '!' _ (by decide), Text.stripPrefix?, if_true,
        hblank gap' hgap' 'n' _ (by decide)]
      rfl

/-- The check of a condition decides whether the condition tests for an error. -/
theorem testsError_iff {condition : List Char} :
    testsError condition = true ↔ TestsError condition := by
  unfold testsError TestsError
  rw [Bool.or_eq_true, comparesErr_iff, List.isPrefixOf_iff_prefix]

instance (condition : List Char) : Decidable (TestsError condition) :=
  decidable_of_iff _ testsError_iff

/-! ## The variable -/

/-- A character of a name: of an ASCII word, or one of several bytes that is not blank. -/
def isNameChar (c : Char) : Bool :=
  isWordChar c || (c.utf8Size != 1 && !Text.isBlank c)

/-- No name reaches the end of the text. -/
def endsNoName (cs : List Char) : Bool :=
  cs.getLast?.all (!isNameChar ·)

/-- No name goes on where the text begins. -/
def continuesNoName (cs : List Char) : Bool :=
  cs.head?.all (!isNameChar ·)

/-- A name behind the text is selected from nothing. -/
def selectsNothing (cs : List Char) : Bool :=
  (Text.trimEnd cs).getLast? != some '.'

/-- Code compares the variable `err`, which is selected from nothing, with `nil`. -/
def TestsVariable (code : List Char) : Prop :=
  ∃ before gap gap' after, code = before ++ ("err".toList ++
      (gap ++ ("!=".toList ++ (gap' ++ ("nil".toList ++ after))))) ∧
    Text.allBlank gap = true ∧ Text.allBlank gap' = true ∧
    endsNoName before = true ∧ selectsNothing before = true ∧ continuesNoName after = true

/-- What stands behind the operator that a text begins with, blanks aside. -/
def behindOperator (cs : List Char) : List Char :=
  Text.trimStart ((Text.trimStart cs).drop 2)

theorem testsVariable_iff {code : List Char} : TestsVariable code ↔
    ∃ i < code.length, "err".toList <+: code.drop i ∧ endsNoName (code.take i) = true ∧
      selectsNothing (code.take i) = true ∧
      "!=".toList <+: Text.trimStart (code.drop (i + 3)) ∧
      "nil".toList <+: behindOperator (code.drop (i + 3)) ∧
      continuesNoName ((behindOperator (code.drop (i + 3))).drop 3) = true := by
  constructor
  · rintro ⟨before, gap, gap', after, rfl, hgap, hgap', hname, hselects, hafter⟩
    have hstart : Text.trimStart (gap ++ ("!=".toList ++ (gap' ++ ("nil".toList ++ after)))) =
        "!=".toList ++ (gap' ++ ("nil".toList ++ after)) :=
      Text.trimStart_append hgap (by decide) _
    have hstart' : Text.trimStart (gap' ++ ("nil".toList ++ after)) = "nil".toList ++ after :=
      Text.trimStart_append hgap' (by decide) _
    have hbehind : behindOperator (gap ++ ("!=".toList ++ (gap' ++ ("nil".toList ++ after)))) =
        "nil".toList ++ after := by
      unfold behindOperator
      rw [hstart]
      exact hstart'
    refine ⟨before.length, by simp, ?_, ?_, ?_, ?_⟩
    · rw [List.drop_left]
      exact List.prefix_append _ _
    · rwa [List.take_left]
    · rwa [List.take_left]
    · rw [← List.drop_drop, List.drop_left]
      show "!=".toList <+: Text.trimStart (gap ++ _) ∧ _ <+: behindOperator (gap ++ _) ∧
        continuesNoName ((behindOperator (gap ++ _)).drop 3) = true
      rw [hstart, hbehind]
      exact ⟨List.prefix_append _ _, List.prefix_append _ _, hafter⟩
  · rintro ⟨i, -, ⟨rest, hrest⟩, hname, hselects, ⟨rest', hrest'⟩, ⟨after, hafter⟩,
      hcontinues⟩
    have hdrop : code.drop (i + 3) = rest := by
      rw [← List.drop_drop, ← hrest]
      rfl
    rw [hdrop] at hrest' hafter hcontinues
    unfold behindOperator at hafter hcontinues
    rw [← hrest'] at hafter hcontinues
    obtain ⟨gap, hgap, hgapBlank⟩ := Text.exists_trimStart rest
    obtain ⟨gap', hgap', hgapBlank'⟩ := Text.exists_trimStart rest'
    have hafter' : Text.trimStart rest' = "nil".toList ++ after := hafter.symm
    refine ⟨code.take i, gap, gap', after, ?_, hgapBlank, hgapBlank', hname, hselects, ?_⟩
    · rw [← hafter', ← hgap', hrest', ← hgap, hrest, List.take_append_drop]
    · rwa [← hafter] at hcontinues

instance (code : List Char) : Decidable (TestsVariable code) :=
  decidable_of_iff' _ testsVariable_iff

/-- Where code has the word `err` it names the variable, and what it compares and begins as `nil` does
is `nil`. -/
structure NamesWhole (code : List Char) : Prop where
  whole_err : ∀ i ≤ code.length, "err".toList <+: code.drop i → endsNoWord (code.take i) = true →
    endsNoName (code.take i) = true ∧ selectsNothing (code.take i) = true
  whole_nil : ∀ i ≤ code.length, "!=".toList <+: code.drop i →
    "nil".toList <+: Text.trimStart (code.drop (i + 2)) →
    continuesNoName ((Text.trimStart (code.drop (i + 2))).drop 3) = true

instance (code : List Char) : Decidable (NamesWhole code) :=
  decidable_of_iff ((∀ i ≤ code.length, "err".toList <+: code.drop i →
        endsNoWord (code.take i) = true →
        endsNoName (code.take i) = true ∧ selectsNothing (code.take i) = true) ∧
      ∀ i ≤ code.length, "!=".toList <+: code.drop i →
        "nil".toList <+: Text.trimStart (code.drop (i + 2)) →
        continuesNoName ((Text.trimStart (code.drop (i + 2))).drop 3) = true)
    ⟨fun h => ⟨h.1, h.2⟩, fun h => ⟨h.1, h.2⟩⟩

/-- A condition that compares the word `err` shows the comparison. -/
theorem ComparesErr.exists_code {condition : List Char} (h : ComparesErr condition) :
    ∃ before gap gap' after, mask .go condition = before ++ ("err".toList ++
        (gap ++ ("!=".toList ++ (gap' ++ ("nil".toList ++ after))))) ∧
      Text.allBlank gap = true ∧ Text.allBlank gap' = true ∧ endsNoWord before = true := by
  obtain ⟨before, gap, gap', after, hsource, hgap, hgap', hword⟩ := h
  obtain ⟨rest, ⟨x, hx, hlen⟩, y, hy, hlen'⟩ :=
    @textFrom_of_wordAt _ _ ['r'] _ _ hword (by decide)
  obtain ⟨mid, rfl, hrest, -⟩ := Text.exists_split_of_le hsource hx (by omega)
  rw [Text.byteLength_append] at hlen
  obtain rfl : mid = [] := Text.byteLength_eq_zero (by omega)
  have hbare (t rest : List Char) (ht : t.all isBareChar = true) :
      mask .go (t ++ rest) = t ++ mask .go rest := by
    rw [(solid_of_bare ht).mask_append, mask_of_isBare (isBare_of_all ht)]
  rw [← List.nil_append (_ ++ rest), ← hrest, hbare "err".toList _ (by decide),
    mask_blank_append hgap, hbare "!=".toList _ (by decide), mask_blank_append hgap',
    hbare "nil".toList _ (by decide)] at hy
  exact ⟨y, gap, gap', _, hy, hgap, hgap', ((wordAt_iff hy).1 (hlen' ▸ hword)).1⟩

/-- Where the words of a condition are whole names, a comparison that shows is one of the variable. -/
theorem ComparesErr.testsVariable {condition : List Char} (h : ComparesErr condition)
    (hnames : NamesWhole (mask .go condition)) : TestsVariable (mask .go condition) := by
  obtain ⟨before, gap, gap', after, hcode, hgap, hgap', hends⟩ := h.exists_code
  have hstart : Text.trimStart (gap' ++ ("nil".toList ++ after)) = "nil".toList ++ after :=
    Text.trimStart_append hgap' (by decide) _
  have herr := hnames.whole_err before.length (by rw [hcode]; simp)
  rw [hcode, List.drop_left, List.take_left] at herr
  obtain ⟨hname, hselects⟩ := herr (List.prefix_append _ _) hends
  have hsplit : mask .go condition = (before ++ ("err".toList ++ gap)) ++
      ("!=".toList ++ (gap' ++ ("nil".toList ++ after))) := by
    rw [hcode]
    simp only [List.append_assoc]
  have hnil := hnames.whole_nil (before ++ ("err".toList ++ gap)).length (by rw [hsplit]; simp)
  rw [hsplit, ← List.drop_drop, List.drop_left] at hnil
  have hnil := hnil (List.prefix_append _ _)
  rw [show ("!=".toList ++ (gap' ++ ("nil".toList ++ after))).drop 2 =
    gap' ++ ("nil".toList ++ after) from rfl, hstart] at hnil
  exact ⟨before, gap, gap', after, hcode, hgap, hgap', hname, hselects,
    hnil (List.prefix_append _ _)⟩

end Client

namespace Masked

/-! ## Heads of error blocks -/

variable {source : List Char} {i opened closed : Nat} {b : Span}

/-- The conditional at an offset, with the brace that opens its first branch and the one that closes it,
is an error block, which goes with its other branches and with the blanks on its lines. -/
structure Heads (m : Masked) (i opened closed : Nat) (b : Span) : Prop where
  keyword : m.wordAt "if".toList i = true
  opens : m.findTopLevel? (i + "if".length) m.size '\x7b' = some opened
  tests : Client.TestsError (Text.trim (m.slice (i + "if".length) opened))
  closes : m.closer? opened = some closed
  block : b = m.widen i (m.chainStop (closed + 1))

/-- Every error block has a conditional at its head. -/
theorem exists_heads_of_mem {m : Masked} {starts : List Nat} {start : Nat}
    (hstarts : ∀ i ∈ starts, m.wordAt "if".toList i = true)
    (hb : b ∈ m.errorBlocksFrom starts start) : ∃ i opened closed, m.Heads i opened closed b := by
  induction starts generalizing start with
  | nil => exact absurd hb List.not_mem_nil
  | cons i starts ih =>
    have ih {start : Nat} := @ih start fun j hj => hstarts j (List.mem_cons_of_mem i hj)
    rw [errorBlocksFrom] at hb
    extract_lets head at hb
    split at hb
    · exact ih hb
    · split at hb
      · exact absurd hb List.not_mem_nil
      · rename_i opened hopened
        split at hb
        · rename_i htests
          split at hb
          · exact absurd hb List.not_mem_nil
          · rename_i closed hclosed
            rcases List.mem_cons.1 hb with rfl | hb
            · exact ⟨i, opened, closed, hstarts i List.mem_cons_self, hopened,
                Client.testsError_iff.1 htests, hclosed, rfl⟩
            · exact ih hb
        · exact ih hb

theorem exists_heads {m : Masked} (hb : b ∈ m.errorBlocks) :
    ∃ i opened closed, m.Heads i opened closed b :=
  exists_heads_of_mem (fun _ hi => (mem_wordStarts.1 hi).2) hb

/-- A block is closed by a brace, and all its branches are. -/
theorem Heads.exists_chainStop {m : Masked} (h : m.Heads i opened closed b) :
    ∃ k, m.chainStop (closed + 1) = k + 1 ∧ closed ≤ k ∧ m.hasChar k '\x7d' = true :=
  chainStop_spec (hasChar_closer (d := .brace) (hasChar_of_findTopLevel? h.opens) h.closes)

/-- The block begins where its conditional does, or where the line of the conditional does. -/
theorem Heads.start_spec (h : (ofSource .go source).Heads i opened closed b) :
    b.start ≤ i ∧ (ofSource .go source).CutsAt b.start ∧
      (ofSource .go source).isBlank b.start i = true := by
  rw [h.block]
  unfold widen
  dsimp only
  split
  · rename_i hline
    exact ⟨lineStart_le _ i, (isLineStart_lineStart _ i).cutsAt, hline⟩
  · have hfirst : (ofSource .go source).hasChar i 'i' = true :=
      hasChar_of_wordAt (k := 0) h.keyword rfl
    exact ⟨Nat.le_refl i, (cutsAt_of_hasChar hfirst (by decide) (by decide)).1, isBlank_self _ i⟩

/-! ## Removed conditionals -/

/-- The conditional at an offset heads an error block. -/
def Removes (m : Masked) (i : Nat) : Prop :=
  i ∈ m.wordStarts "if" ∧
    ∃ b ∈ m.errorBlocks, b.start ≤ i ∧ i < b.stop ∧ m.isBlank b.start i = true

instance (m : Masked) (i : Nat) : Decidable (m.Removes i) :=
  inferInstanceAs (Decidable (_ ∧ _))

/-- The first conditional of an error block is the one at its head. -/
theorem Removes.exists_heads {t : List Char} (h : (ofSource .go t).Removes i) :
    ∃ opened closed b, (ofSource .go t).Heads i opened closed b := by
  obtain ⟨hi, b, hb, hle, -, hblank⟩ := h
  obtain ⟨j, opened, closed, hheads⟩ := Masked.exists_heads hb
  obtain ⟨hstart, hcut, hblank'⟩ := hheads.start_spec
  have hfirst : (ofSource .go t).hasChar i 'i' = true :=
    hasChar_of_wordAt (k := 0) (mem_wordStarts.1 hi).2 rfl
  have hfirst' : (ofSource .go t).hasChar j 'i' = true :=
    hasChar_of_wordAt (k := 0) hheads.keyword rfl
  have hnot {k n : Nat} (hcut' : (ofSource .go t).CutsAt n) (hkn : k < n) (hle : b.start ≤ k)
      (hblank : (ofSource .go t).isBlank b.start n = true)
      (hk : (ofSource .go t).hasChar k 'i' = true) : False := by
    have := isBlank_of_hasChar (c := 'i') hcut hcut' hblank hle hkn (by decide) hk
    exact absurd this (by decide)
  obtain rfl : i = j := by
    rcases Nat.lt_trichotomy i j with hlt | heq | hlt
    · exact (hnot (cutsAt_of_hasChar hfirst' (by decide) (by decide)).1 hlt hle hblank' hfirst).elim
    · exact heq
    · exact (hnot (cutsAt_of_hasChar hfirst (by decide) (by decide)).1 hlt hstart hblank hfirst').elim
  exact ⟨opened, closed, b, hheads⟩

/-- A conditional whose condition does not begin with the test of a flag is removed only when the
condition shows a comparison of the variable `err` with `nil`: where the words of the condition are whole
names. -/
theorem removed_tests_variable {t condition : List Char}
    (hi : (ofSource .go t).Removes i)
    (hopened : (ofSource .go t).findTopLevel? (i + "if".length) (ofSource .go t).size '\x7b' =
      some opened)
    (hcondition : Text.trim ((ofSource .go t).slice (i + "if".length) opened) = condition)
    (hflag : ¬"ok, code :=".toList <+: condition) (hnames : Client.NamesWhole (mask .go condition)) :
    Client.TestsVariable (mask .go condition) := by
  obtain ⟨opened', closed, b, hheads⟩ := hi.exists_heads
  obtain rfl : opened' = opened := Option.some.inj (hheads.opens.symm.trans hopened)
  have htests := hheads.tests
  rw [hcondition] at htests
  exact (htests.resolve_right hflag).testsVariable hnames

/-- A test of the variable with an initialiser, a field and a string around it. -/
def initialisedTest : List Char :=
  "if err := c.find(\"err == nil\"); c.strict && err != nil \x7b\n\treturn\n\x7d\n".toList

theorem removed_tests_variable_initialisedTest :
    (ofSource .go initialisedTest).Removes 0 ∧
      (ofSource .go initialisedTest).findTopLevel? 2 (ofSource .go initialisedTest).size '\x7b' =
        some 55 ∧
      Client.TestsVariable (mask .go (Text.trim ((ofSource .go initialisedTest).slice 2 55))) := by
  have hremoves : (ofSource .go initialisedTest).Removes 0 := by decide +kernel
  have hopened : (ofSource .go initialisedTest).findTopLevel? 2
      (ofSource .go initialisedTest).size '\x7b' = some 55 := by decide +kernel
  exact ⟨hremoves, hopened,
    removed_tests_variable hremoves hopened rfl (by decide +kernel) (by decide +kernel)⟩

/-- The conditional at an offset, whose first branch opens at the second one, is removed, and it tests
neither a flag nor the variable. -/
def RemovesOther (m : Masked) (i opened : Nat) : Prop :=
  m.Removes i ∧ m.findTopLevel? (i + "if".length) m.size '\x7b' = some opened ∧
    ¬"ok, code :=".toList <+: Text.trim (m.slice (i + "if".length) opened) ∧
    ¬Client.TestsVariable (mask .go (Text.trim (m.slice (i + "if".length) opened)))

instance (m : Masked) (i opened : Nat) : Decidable (m.RemovesOther i opened) :=
  inferInstanceAs (Decidable (_ ∧ _))

/-- A test of a field, and a comparison of the variable with a name that begins as `nil` does. -/
def otherTests : List Char :=
  "if c.err != nil \x7b\n\tc.log()\n\x7d\nif err != nilable \x7b\n\tc.log()\n\x7d\n".toList

/-- Both conditionals are removed. -/
theorem removed_other_tests :
    (ofSource .go otherTests).RemovesOther 0 16 ∧ (ofSource .go otherTests).RemovesOther 29 47 :=
  ⟨by decide +kernel, by decide +kernel⟩

end Masked

end RpcBindings
