import RpcBindings.Client.CallSite
import RpcBindings.Proofs.Masked.Boundary
import RpcBindings.Proofs.Masked.Word

/-!
What searches in a masked text find.

Each search has one lemma that says all a caller may use of its result: where it stands, which byte
stands there, and what lies between it and where the search began.
-/

namespace RpcBindings

namespace Delimiter

theorem eq_opener_of_ofOpener? {b : UInt8} {d : Delimiter} (h : ofOpener? b = some d) :
    b = d.opener.toUInt8 := by
  unfold ofOpener? at h
  split at h
  · obtain rfl := Option.some.inj h; assumption
  · split at h
    · obtain rfl := Option.some.inj h; assumption
    · split at h
      · obtain rfl := Option.some.inj h; assumption
      · simp at h

end Delimiter

namespace Masked

variable {m : Masked} {i j : Nat}

/-! ## Parts of the bytes -/

/-- What stands in a part of the bytes stands in the bytes. -/
theorem isPrefixOf_of_byteSlice {pattern : List UInt8} {i j k : Nat}
    (h : pattern.isPrefixOf ((m.byteSlice i j).drop k) = true) :
    pattern.isPrefixOf (m.bytes.drop (i + k)) = true := by
  rw [List.isPrefixOf_iff_prefix] at h ⊢
  unfold byteSlice at h
  rw [List.drop_take, List.drop_drop] at h
  exact h.trans (List.take_prefix _ _)

theorem byteSlice_self (m : Masked) (i : Nat) : m.byteSlice i i = [] := by
  unfold byteSlice
  rw [Nat.sub_self, List.take_zero]

theorem length_byteSlice {i j : Nat} (hij : i ≤ j) (hj : j ≤ m.size) :
    (m.byteSlice i j).length = j - i := by
  unfold byteSlice size at *
  rw [List.length_take, List.length_drop]
  omega

/-- The first byte of a part of the bytes, and the part behind it. -/
theorem byteSlice_eq_cons {stop : Nat} {b : UInt8} {bs : List UInt8}
    (h : m.byteSlice i stop = b :: bs) : m.bytes[i]? = some b ∧ m.byteSlice (i + 1) stop = bs := by
  unfold byteSlice at h ⊢
  obtain ⟨n, hn⟩ : ∃ n, stop - i = n + 1 := by
    cases hsub : stop - i with
    | zero => rw [hsub] at h; exact absurd h (by simp)
    | succ n => exact ⟨n, rfl⟩
  cases hdrop : m.bytes.drop i with
  | nil => rw [hdrop] at h; exact absurd h (by simp)
  | cons x xs =>
    rw [hdrop, hn, List.take_succ_cons] at h
    obtain ⟨rfl, rfl⟩ := List.cons.inj h
    have htail : m.bytes.drop (i + 1) = xs := by
      rw [← List.tail_drop, hdrop]
      rfl
    refine ⟨?_, ?_⟩
    · rw [← List.head?_drop, hdrop]
      rfl
    · rw [htail, show stop - (i + 1) = n by omega]

/-! ## Blanks and names -/

/-- Only blanks are skipped, and the search ends on a character that is none. -/
theorem skipBlank?_eq_some (h : m.skipBlank? i = some j) :
    ∃ a blank c rest, m.code = a ++ (blank ++ c :: rest) ∧ Text.byteLength a = i ∧
      Text.allBlank blank = true ∧ Text.isBlank c = false ∧ j = i + Text.byteLength blank := by
  unfold skipBlank? at h
  split at h
  · simp at h
  · rename_i cs hcs
    obtain ⟨a, hcode, ha⟩ := Text.dropBytes?_eq_some_iff.1 hcs
    split at h
    · simp at h
    · rename_i hblank
      obtain rfl := Option.some.inj h
      have hsplit := List.takeWhile_append_dropWhile (p := Text.isBlank) (l := cs)
      cases hrest : cs.dropWhile Text.isBlank with
      | nil =>
        rw [hrest, List.append_nil] at hsplit
        refine absurd ?_ hblank
        rw [Text.allBlank, ← hsplit, List.all_takeWhile]
      | cons c rest =>
        refine ⟨a, cs.takeWhile Text.isBlank, c, rest, ?_, ha, List.all_takeWhile, ?_, rfl⟩
        · rw [hcode, ← hrest, hsplit]
        · have := List.head?_dropWhile_not Text.isBlank cs
          simpa [hrest] using this

theorem isBlank_of_skipBlank? (h : m.skipBlank? i = some j) : m.isBlank i j = true := by
  obtain ⟨a, blank, c, rest, hcode, rfl, hblank, -, rfl⟩ := skipBlank?_eq_some h
  have := Text.cut_append a blank (c :: rest)
  rw [List.append_assoc, ← hcode] at this
  unfold isBlank codeSlice
  rw [this]
  exact hblank

/-- A name begins where it is looked for, and all its bytes can stand in a word. -/
theorem identAt?_eq_some {s : Span} (h : m.identAt? i = some s) :
    s.start = i ∧ i < s.stop ∧ (∃ b, m.bytes[i]? = some b ∧ isWordStart b = true) ∧
      ∃ b, m.bytes[s.stop - 1]? = some b ∧ isWordByte b = true := by
  unfold identAt? at h
  split at h
  · simp at h
  · rename_i b bs hbs
    split at h
    · rename_i hb
      obtain rfl := Option.some.inj h
      have hget (k : Nat) : m.bytes[i + k]? = (b :: bs)[k]? := by
        rw [← hbs, List.getElem?_drop]
      refine ⟨rfl, by simp; omega, ⟨b, by simpa using hget 0, hb⟩, ?_⟩
      show ∃ b', m.bytes[i + 1 + (bs.takeWhile isWordByte).length - 1]? = some b' ∧ _
      rw [show i + 1 + (bs.takeWhile isWordByte).length - 1 =
        i + (bs.takeWhile isWordByte).length by omega, hget]
      cases hn : (bs.takeWhile isWordByte).length with
      | zero => exact ⟨b, rfl, isWordByte_of_isWordStart hb⟩
      | succ n =>
        have hlt : n < (bs.takeWhile isWordByte).length := by omega
        refine ⟨(bs.takeWhile isWordByte)[n], ?_, ?_⟩
        · rw [List.getElem?_cons_succ, (List.takeWhile_prefix isWordByte).getElem hlt]
          exact List.getElem?_eq_getElem _
        · exact List.all_eq_true.1 List.all_takeWhile _ (List.getElem_mem hlt)
    · simp at h

/-- A name ends at the latest before a byte that can stand in no word. -/
theorem stop_le_of_identAt? {s : Span} {k : Nat} {x : UInt8} (h : m.identAt? i = some s)
    (hik : i ≤ k) (hk : m.bytes[k]? = some x) (hx : isWordByte x = false) : s.stop ≤ k := by
  unfold identAt? at h
  split at h
  · simp at h
  · rename_i b bs hbs
    split at h
    · rename_i hb
      obtain rfl := Option.some.inj h
      refine Nat.le_of_not_lt fun hlt => ?_
      have hget : (b :: bs)[k - i]? = some x := by
        rw [← hbs, List.getElem?_drop, Nat.add_sub_cancel' hik]
        exact hk
      have hword : isWordByte x = true := by
        cases hn : k - i with
        | zero =>
          rw [hn] at hget
          obtain rfl := Option.some.inj hget
          exact isWordByte_of_isWordStart hb
        | succ n =>
          have hlt : n < (bs.takeWhile isWordByte).length := by
            have : k < i + 1 + (bs.takeWhile isWordByte).length := hlt
            omega
          rw [hn, List.getElem?_cons_succ, ← List.takeWhile_append_dropWhile (p := isWordByte) (l := bs),
            List.getElem?_append_left hlt] at hget
          exact List.all_eq_true.1 List.all_takeWhile _ (List.mem_of_getElem? hget)
      rw [hx] at hword
      exact Bool.false_ne_true hword
    · simp at h

/-! ## Delimiters -/

theorem closerOffset_eq_some {d : Delimiter} {depth n : Nat} {bs : List UInt8}
    (h : closerOffset d depth bs = some n) : bs[n]? = some d.closer.toUInt8 := by
  induction bs generalizing depth n with
  | nil => simp [closerOffset] at h
  | cons b bs ih =>
    simp only [closerOffset] at h
    split at h
    · obtain ⟨k, hk, rfl⟩ := Option.map_eq_some_iff.1 h
      simpa using ih hk
    · split at h
      · rename_i hb
        split at h
        · obtain rfl := Option.some.inj h
          simpa using hb
        · obtain ⟨k, hk, rfl⟩ := Option.map_eq_some_iff.1 h
          simpa using ih hk
      · obtain ⟨k, hk, rfl⟩ := Option.map_eq_some_iff.1 h
        simpa using ih hk

/-- A closer of the opener's kind stands where the partner is found. -/
theorem closer?_eq_some (h : m.closer? i = some j) :
    ∃ d : Delimiter, m.bytes[i]? = some d.opener.toUInt8 ∧
      m.bytes[j]? = some d.closer.toUInt8 := by
  unfold closer? at h
  split at h
  · simp at h
  · rename_i b bs hbs
    split at h
    · simp at h
    · rename_i d hd
      obtain ⟨k, hk, rfl⟩ := Option.map_eq_some_iff.1 h
      have hget (n : Nat) : m.bytes[i + n]? = (b :: bs)[n]? := by
        rw [← hbs, List.getElem?_drop]
      refine ⟨d, ?_, ?_⟩
      · rw [← Delimiter.eq_opener_of_ofOpener? hd]
        simpa using hget 0
      · rw [Nat.add_assoc, Nat.add_comm 1 k, hget, List.getElem?_cons_succ]
        exact closerOffset_eq_some hk

/-- Nothing stands between an offset and itself. -/
theorem isBlank_self (m : Masked) (i : Nat) : m.isBlank i i = true := by
  unfold isBlank codeSlice Text.cut
  rw [Nat.sub_self, Text.takeBytes]
  rfl

theorem hasChar_iff {c : Char} : m.hasChar i c = true ↔ m.bytes[i]? = some c.toUInt8 := by
  unfold hasChar byteAt?
  exact beq_iff_eq

/-- Before and behind a character that shows and is no space a source can be cut. -/
theorem cutsAt_of_hasChar {lang : SourceLang} {source : List Char} {c : Char}
    (h : (ofSource lang source).hasChar i c = true) (hc : c.utf8Size = 1) (hspace : c ≠ ' ') :
    (ofSource lang source).CutsAt i ∧ (ofSource lang source).CutsAt (i + 1) :=
  cutsAt_of_byte (hasChar_iff.1 h) (Text.toUInt8_lt_of_narrow hc) fun heq =>
    hspace (Text.eq_of_toUInt8_eq hc rfl heq)

/-- A character of a word shows where the word stands. -/
theorem hasChar_of_wordAt {word : List Char} {k : Nat} {c : Char} (h : m.wordAt word i = true)
    (hc : (Text.bytes word)[k]? = some c.toUInt8) : m.hasChar (i + k) c = true :=
  hasChar_iff.2 (getElem?_of_wordAt h hc)

theorem lt_size_of_hasChar {c : Char} (h : m.hasChar i c = true) : i < m.size :=
  (List.getElem?_eq_some_iff.1 (hasChar_iff.1 h)).1

/-- Before a character that is no blank the search for what follows blanks ends. -/
theorem exists_skipBlank? {k : Nat} {c : Char} (hi : m.CutsAt i) (hik : i ≤ k)
    (hc : m.hasChar k c = true) (hnarrow : c.utf8Size = 1) (hblank : Text.isBlank c = false) :
    ∃ j, m.skipBlank? i = some j ∧ j ≤ k := by
  obtain ⟨-, x, y, hcode, rfl⟩ := hi
  have hbyte : (Text.bytes y)[k - Text.byteLength x]? = some c.toUInt8 := by
    rw [← Text.drop_bytes_append x y, List.getElem?_drop, Nat.add_sub_cancel' hik, ← hcode,
      ← m.bytes_eq]
    exact hasChar_iff.1 hc
  obtain ⟨p, d, q, rfl, hp, hd, hdc⟩ := Text.exists_split_of_ascii hbyte
    (Text.toUInt8_lt_of_narrow hnarrow)
  obtain rfl := Text.eq_of_toUInt8_eq hd hnarrow hdc
  have hall : Text.allBlank (p ++ d :: q) = false := by
    refine Bool.eq_false_iff.2 fun hall => ?_
    have := List.all_eq_true.1 hall d (by simp)
    rw [hblank] at this
    exact Bool.false_ne_true this
  refine ⟨Text.byteLength x + Text.byteLength ((p ++ d :: q).takeWhile Text.isBlank), ?_, ?_⟩
  · unfold skipBlank?
    rw [hcode, Text.dropBytes?_append]
    simp only [hall]
    rfl
  · have hprefix : (p ++ d :: q).takeWhile Text.isBlank <+: p := by
      rw [List.takeWhile_append]
      split
      · have hnone : (d :: q).takeWhile Text.isBlank = [] :=
          List.takeWhile_cons_of_neg (by simp [hblank])
        exact ⟨[], by rw [hnone, List.append_nil, List.append_nil]⟩
      · exact List.takeWhile_prefix _
    obtain ⟨r, hr⟩ := hprefix
    have := congrArg Text.byteLength hr
    rw [Text.byteLength_append] at this
    omega

/-- The partner of an opener is a closer of its kind. -/
theorem hasChar_closer {d : Delimiter} (ho : m.hasChar i d.opener = true)
    (h : m.closer? i = some j) : m.hasChar j d.closer = true := by
  obtain ⟨e, he, hj⟩ := closer?_eq_some h
  rw [hasChar_iff] at ho ⊢
  have : e = d := by
    have := Option.some.inj (he.symm.trans ho)
    revert this
    cases e <;> cases d <;> decide
  rw [hj, this]

/-- Parentheses are found after blanks, and as partners. -/
theorem parensAfter?_eq_some {s : Span} (h : m.parensAfter? i = some s) :
    i ≤ s.start ∧ m.isBlank i s.start = true ∧ m.hasChar s.start '(' = true ∧
      m.closer? s.start = some s.stop := by
  unfold parensAfter? at h
  split at h
  · simp at h
  · rename_i opened hopened
    split at h
    · rename_i hc
      obtain ⟨k, hk, rfl⟩ := Option.map_eq_some_iff.1 h
      exact ⟨le_of_skipBlank? hopened, isBlank_of_skipBlank? hopened, hc, hk⟩
    · simp at h

theorem topLevelOffset_eq_some {target : UInt8} {depth n : Nat} {bs : List UInt8}
    (h : topLevelOffset target depth bs = some n) : bs[n]? = some target := by
  induction bs generalizing depth n with
  | nil => simp [topLevelOffset] at h
  | cons b bs ih =>
    rw [topLevelOffset] at h
    split at h
    · rename_i hb
      obtain rfl := Option.some.inj h
      simp only [Bool.and_eq_true, decide_eq_true_eq] at hb
      simpa using hb.2
    · obtain ⟨k, hk, rfl⟩ := Option.map_eq_some_iff.1 h
      simpa using ih hk

/-- The pieces of a range are those that end at a separator, and what stands behind the last one. -/
theorem mem_pieces {p : Span} {sep : Char} (h : p ∈ m.splitTopLevel i j sep) :
    p ∈ (piecesFrom sep.toUInt8 0 i i (m.byteSlice i j)).1 ++
      [⟨(piecesFrom sep.toUInt8 0 i i (m.byteSlice i j)).2, j⟩] := by
  unfold splitTopLevel withTail at h
  split at h
  · exact List.mem_append_left _ h
  · exact h

/-- The target stands where it is found. -/
theorem hasChar_of_findTopLevel? {stop : Nat} {c : Char}
    (h : m.findTopLevel? i stop c = some j) : m.hasChar j c = true := by
  obtain ⟨k, hk, rfl⟩ := Option.map_eq_some_iff.1 h
  have hb := topLevelOffset_eq_some hk
  rw [hasChar_iff, ← List.getElem?_drop]
  unfold byteSlice at hb
  rw [List.getElem?_take] at hb
  split at hb
  · exact hb
  · simp at hb

end Masked

end RpcBindings
