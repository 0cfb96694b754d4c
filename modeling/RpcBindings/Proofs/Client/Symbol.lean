import Mathlib.Data.List.SplitBy
import RpcBindings.Proofs.Client.KeptStatements

/-!
The symbols of code: its words, and every other character that is not blank.

Symbols are what is left of code when its layout does not count. Code can be parted into symbols
wherever no word goes on (`symbols_append`), and every text that is not blank begins with one
(`exists_symbol`).
-/

namespace RpcBindings

namespace Masked

/-! ## Words -/

/-- No word goes on where the text begins. -/
def beginsNoWord (cs : List Char) : Bool :=
  cs.head?.all (!isWordChar ·)

theorem endsNoWord_append_of_ne_nil {a b : List Char} (hb : b ≠ []) :
    endsNoWord (a ++ b) = endsNoWord b := by
  unfold endsNoWord
  rw [List.getLast?_append_of_ne_nil _ hb]

theorem endsNoWord_of_append {a x : List Char} (h : endsNoWord (a ++ x) = true) :
    endsNoWord x = true := by
  cases x with
  | nil => rfl
  | cons c x => rwa [endsNoWord_append_of_ne_nil (List.cons_ne_nil c x)] at h

theorem beginsNoWord_append {a b : List Char} (ha : beginsNoWord a = true)
    (hb : beginsNoWord b = true) : beginsNoWord (a ++ b) = true := by
  cases a with
  | nil => exact hb
  | cons c a => exact ha

theorem beginsNoWord_of_append {x b : List Char} (h : beginsNoWord (x ++ b) = true) :
    beginsNoWord x = true := by
  cases x with
  | nil => rfl
  | cons c x => exact h

theorem breaksWord_head? (cs : List Char) :
    breaksWord (Text.bytes cs).head? = beginsNoWord cs := by
  cases cs with
  | nil => rfl
  | cons c cs =>
    show _ = !isWordChar c
    by_cases hc : c.utf8Size = 1
    · rw [Text.bytes_cons_of_narrow hc]
      exact congrArg (!·) (isWordByte_toUInt8 hc)
    · rw [isWordChar_of_wide hc, Text.bytes_cons]
      exact breaksWord_char (fun h => absurd h hc) _

theorem breaksWord_getLast? (cs : List Char) :
    breaksWord (Text.bytes cs).getLast? = endsNoWord cs := by
  cases hlast : cs.getLast? with
  | none =>
    rw [List.getLast?_eq_none_iff.1 hlast]
    rfl
  | some c =>
    obtain ⟨init, rfl⟩ := List.getLast?_eq_some_iff.1 hlast
    have hends : endsNoWord (init ++ [c]) = !isWordChar c := by
      unfold endsNoWord
      rw [hlast]
      rfl
    rw [hends, Text.bytes_append]
    by_cases hc : c.utf8Size = 1
    · rw [Text.bytes_cons_of_narrow hc, Text.bytes_nil, List.getLast?_append_of_ne_nil _ (by simp)]
      exact congrArg (!·) (isWordByte_toUInt8 hc)
    · rw [isWordChar_of_wide hc, Text.bytes_cons, Text.bytes_nil, List.append_nil,
        List.getLast?_append_of_ne_nil _ String.utf8EncodeChar_ne_nil,
        List.getLast?_eq_some_getLast String.utf8EncodeChar_ne_nil]
      have := Text.le_of_mem_wide hc (List.getLast_mem String.utf8EncodeChar_ne_nil)
      exact congrArg (!·) (isWordByte_eq_false this)

/-- The byte before an offset is the last one of the text before it. -/
theorem byteBefore_byteLength {m : Masked} {a b : List Char} (h : m.code = a ++ b) :
    m.byteBefore (Text.byteLength a) = (Text.bytes a).getLast? := by
  rw [List.getLast?_eq_getElem?, Text.length_bytes]
  cases hlen : Text.byteLength a with
  | zero =>
    rw [Text.byteLength_eq_zero hlen]
    rfl
  | succ n =>
    show m.bytes[n]? = _
    rw [m.bytes_eq, h, Text.bytes_append, List.getElem?_append_left]
    · rfl
    · rw [Text.length_bytes, hlen]
      exact Nat.lt_succ_self n

/-- A word stands whole where no other word reaches it and none goes on behind it. -/
theorem wordAt_iff {m : Masked} {word a b : List Char} (h : m.code = a ++ (word ++ b)) :
    m.wordAt word (Text.byteLength a) = true ↔ endsNoWord a = true ∧ beginsNoWord b = true := by
  have hdrop : m.bytes.drop (Text.byteLength a) = Text.bytes word ++ Text.bytes b := by
    rw [m.bytes_eq, h, Text.drop_bytes_append, Text.bytes_append]
  unfold wordAt wordHere
  rw [hdrop, byteBefore_byteLength h, breaksWord_getLast?, List.drop_left, breaksWord_head?,
    List.isPrefixOf_iff_prefix.2 (List.prefix_append _ _), Bool.true_and, Bool.and_eq_true]

/-! ## Symbols -/

/-- Both characters can stand in one word. -/
def inOneWord (c d : Char) : Bool :=
  isWordChar c && isWordChar d

/-- The symbols of code: its words, and every other character that is not blank. -/
def symbols (code : List Char) : List (List Char) :=
  (code.splitBy inOneWord).filter (!Text.allBlank ·)

/-- Code can be parted into symbols where no word goes on. -/
theorem symbols_append {a b : List Char} (h : endsNoWord a = true ∨ beginsNoWord b = true) :
    symbols (a ++ b) = symbols a ++ symbols b := by
  unfold symbols
  rw [List.splitBy_append, List.filter_append]
  intro c hc d hd
  unfold inOneWord
  rcases h with h | h
  · unfold endsNoWord at h
    rw [Option.mem_def.1 hc] at h
    have hc : isWordChar c = false := by simpa using h
    rw [hc, Bool.false_and]
  · unfold beginsNoWord at h
    rw [Option.mem_def.1 hd] at h
    have hd : isWordChar d = false := by simpa using h
    rw [hd, Bool.and_false]

theorem symbols_of_allBlank {b : List Char} (h : Text.allBlank b = true) : symbols b = [] := by
  refine List.filter_eq_nil_iff.2 fun s hs => ?_
  have hblank : Text.allBlank s = true := List.all_eq_true.2 fun c hc =>
    List.all_eq_true.1 h c (List.flatten_splitBy inOneWord b ▸ List.mem_flatten_of_mem hs hc)
  simp [hblank]

theorem symbols_blank_append {b : List Char} (h : Text.allBlank b = true) (cs : List Char) :
    symbols (b ++ cs) = symbols cs := by
  rw [symbols_append (.inl (endsNoWord_of_allBlank h)), symbols_of_allBlank h, List.nil_append]

theorem beginsNoWord_of_allBlank {b : List Char} (h : Text.allBlank b = true) :
    beginsNoWord b = true := by
  cases b with
  | nil => rfl
  | cons c b =>
    have := isWordChar_of_isBlank (List.all_eq_true.1 h c List.mem_cons_self)
    unfold beginsNoWord
    simp [this]

theorem symbols_append_blank {b : List Char} (h : Text.allBlank b = true) (cs : List Char) :
    symbols (cs ++ b) = symbols cs := by
  rw [symbols_append (.inr (beginsNoWord_of_allBlank h)), symbols_of_allBlank h, List.append_nil]

/-- A word is one symbol. -/
theorem symbols_word {w : List Char} (hne : w ≠ []) (hw : ∀ c ∈ w, isWordChar c = true) :
    symbols w = [w] := by
  have hchain : w.IsChain fun c d => inOneWord c d = true := by
    refine (List.pairwise_of_forall_mem_list fun c hc d hd => ?_).isChain
    unfold inOneWord
    rw [hw c hc, hw d hd]
    rfl
  obtain ⟨c, w, rfl⟩ := List.exists_cons_of_ne_nil hne
  have hblank : Text.allBlank (c :: w) = false := by
    refine Bool.eq_false_iff.2 fun hblank => ?_
    have hc := isWordChar_of_isBlank (List.all_eq_true.1 hblank c List.mem_cons_self)
    rw [hw c List.mem_cons_self] at hc
    exact Bool.noConfusion hc
  unfold symbols
  rw [List.splitBy_of_isChain hne hchain]
  simp [hblank]

theorem symbols_char {c : Char} (hc : Text.isBlank c = false) : symbols [c] = [[c]] := by
  unfold symbols
  rw [List.splitBy_of_isChain (List.cons_ne_nil c []) (by simp)]
  simp [Text.allBlank, hc]

theorem symbols_word_append {w cs : List Char} (hne : w ≠ []) (hw : ∀ c ∈ w, isWordChar c = true)
    (hcs : beginsNoWord cs = true) : symbols (w ++ cs) = w :: symbols cs := by
  rw [symbols_append (.inr hcs), symbols_word hne hw, List.singleton_append]

theorem symbols_char_cons {c : Char} (hword : isWordChar c = false) (hc : Text.isBlank c = false)
    (cs : List Char) : symbols (c :: cs) = [c] :: symbols cs := by
  have hends : endsNoWord [c] = true := by
    unfold endsNoWord
    simp [hword]
  rw [← List.singleton_append, symbols_append (.inl hends), symbols_char hc, List.singleton_append]

theorem symbols_append_char {c : Char} (hword : isWordChar c = false) (hc : Text.isBlank c = false)
    (x y : List Char) : symbols (x ++ c :: y) = symbols x ++ [c] :: symbols y := by
  rw [symbols_append (.inr (by unfold beginsNoWord; simp [hword])), symbols_char_cons hword hc]

/-- A word that stands in code is one of its symbols. -/
theorem mem_symbols {a w b : List Char} (hne : w ≠ []) (hw : ∀ c ∈ w, isWordChar c = true)
    (ha : endsNoWord a = true) (hb : beginsNoWord b = true) : w ∈ symbols (a ++ (w ++ b)) := by
  rw [symbols_append (.inl ha), symbols_word_append hne hw hb]
  exact List.mem_append_right _ List.mem_cons_self

/-- A text begins with its word. -/
theorem exists_word_append (cs : List Char) :
    ∃ w rest, cs = w ++ rest ∧ (∀ c ∈ w, isWordChar c = true) ∧ beginsNoWord rest = true := by
  refine ⟨cs.takeWhile isWordChar, cs.dropWhile isWordChar, List.takeWhile_append_dropWhile.symm,
    List.all_eq_true.1 List.all_takeWhile, ?_⟩
  have := List.head?_dropWhile_not isWordChar cs
  unfold beginsNoWord
  cases h : cs.dropWhile isWordChar with
  | nil => rfl
  | cons c rest => simpa [h] using this

/-- A text is blank, or a symbol stands in it behind nothing but blanks: a word that does not go on, or
a single character. -/
theorem exists_symbol (cs : List Char) :
    Text.allBlank cs = true ∨ ∃ gap s rest, cs = gap ++ (s ++ rest) ∧ Text.allBlank gap = true ∧
      symbols cs = s :: symbols rest ∧
      ((∃ c, s = [c] ∧ isWordChar c = false ∧ Text.isBlank c = false) ∨
        (s ≠ [] ∧ (∀ c ∈ s, isWordChar c = true) ∧ beginsNoWord rest = true)) := by
  obtain ⟨gap, hcs, hgap⟩ := Text.exists_trimStart cs
  have hsymbols : symbols cs = symbols (Text.trimStart cs) := by
    conv => lhs; rw [hcs]
    exact symbols_blank_append hgap _
  cases hstart : Text.trimStart cs with
  | nil =>
    rw [hstart, List.append_nil] at hcs
    exact .inl (hcs ▸ hgap)
  | cons c rest =>
    have hc : Text.isBlank c = false := Text.not_isBlank_of_trimStart_eq hstart
    rw [hstart] at hcs hsymbols
    right
    cases hword : isWordChar c with
    | false =>
      exact ⟨gap, [c], rest, hcs, hgap, hsymbols.trans (symbols_char_cons hword hc rest),
        .inl ⟨c, rfl, hword, hc⟩⟩
    | true =>
      obtain ⟨w, later, rfl, hw, hlater⟩ := exists_word_append rest
      have hw' : ∀ d ∈ c :: w, isWordChar d = true := fun d hd => by
        rcases List.mem_cons.1 hd with rfl | hd
        · exact hword
        · exact hw d hd
      exact ⟨gap, c :: w, later, hcs, hgap,
        hsymbols.trans (symbols_word_append (List.cons_ne_nil c w) hw' hlater),
        .inr ⟨List.cons_ne_nil c w, hw', hlater⟩⟩

end Masked

end RpcBindings
