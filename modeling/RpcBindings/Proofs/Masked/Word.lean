import RpcBindings.Masked.Basic
import RpcBindings.Proofs.Text.Blank
import RpcBindings.Proofs.Text.Bytes
import RpcBindings.Proofs.Text.Search

/-!
Where words stand in a masked text.

`wordStarts` lists the offsets at which a word stands whole: all of them (`mem_wordStarts`), and in
strictly increasing order (`pairwise_wordStarts`). A search that goes on behind an ASCII byte never
stands inside a character (`Text.unbroken_bytes`).
-/

namespace RpcBindings

namespace Text

open Masked

/-! ## Where characters begin -/

/-- The first byte of a character continues none. -/
theorem startsInside_utf8EncodeChar (c : Char) (rest : List UInt8) :
    startsInside (String.utf8EncodeChar c ++ rest) = false := by
  have hlead {n k m : Nat} (hm : 192 ≤ m) (hk : k + m ≤ 256) (hpos : 0 < k) :
      isContinuation (UInt8.ofNat (n % k + m)) = false := by
    have hlt : n % k < k := Nat.mod_lt _ hpos
    have hsize : UInt8.size = 256 := rfl
    unfold isContinuation
    rw [Bool.and_eq_false_iff, decide_eq_false_iff_not, decide_eq_false_iff_not]
    refine .inr fun hle => ?_
    rw [UInt8.le_iff_toNat_le, UInt8.toNat_ofNat_of_lt' (by omega)] at hle
    have hle : n % k + m ≤ 191 := hle
    omega
  by_cases hc : c.utf8Size = 1
  · rw [utf8EncodeChar_of_narrow hc]
    show isContinuation c.toUInt8 = false
    unfold isContinuation
    rw [Bool.and_eq_false_iff, decide_eq_false_iff_not]
    exact .inl (UInt8.not_le.2 (toUInt8_lt_of_narrow hc))
  · unfold String.utf8EncodeChar
    extract_lets v
    split
    · rename_i h
      exact absurd (Char.utf8Size_eq_one_iff.2 (UInt32.le_iff_toNat_le.2 h)) hc
    · split
      · exact hlead (by decide) (by decide) (by decide)
      · split
        · exact hlead (by decide) (by decide) (by decide)
        · exact hlead (by decide) (by decide) (by decide)

/-- No text begins inside a character. -/
theorem startsInside_bytes (cs : List Char) : startsInside (bytes cs) = false := by
  cases cs with
  | nil => rfl
  | cons c cs => exact startsInside_utf8EncodeChar c (bytes cs)

/-- A character begins behind every ASCII byte. -/
def Unbroken (bs : List UInt8) : Prop :=
  ∀ n b, bs[n]? = some b → b < 0x80 → startsInside (bs.drop (n + 1)) = false

theorem Unbroken.drop {bs : List UInt8} (h : Unbroken bs) (k : Nat) : Unbroken (bs.drop k) := by
  intro n b hb hlt
  rw [List.getElem?_drop] at hb
  rw [List.drop_drop]
  exact h (k + n) b hb hlt

theorem Unbroken.tail {b : UInt8} {bs : List UInt8} (h : Unbroken (b :: bs)) : Unbroken bs :=
  h.drop 1

theorem unbroken_bytes (cs : List Char) : Unbroken (bytes cs) := by
  intro n b hb hlt
  obtain ⟨before, c, after, rfl, rfl, hc, -⟩ := exists_split_of_ascii hb hlt
  have hdrop := drop_bytes_append (before ++ [c]) after
  rw [byteLength_append, byteLength_cons, hc, List.append_assoc] at hdrop
  rw [show byteLength before + 1 = byteLength before + (1 + byteLength []) from rfl]
  rw [show before ++ c :: after = before ++ ([c] ++ after) from rfl, hdrop]
  exact startsInside_bytes after

end Text

namespace Masked

/-- The byte before an offset of a run of bytes that `before` precedes. -/
def precedingByte (before : Option UInt8) (bs : List UInt8) : Nat → Option UInt8
  | 0 => before
  | n + 1 => bs[n]?

theorem mem_wordStartsFrom {word : List UInt8} {before : Option UInt8} {k i : Nat}
    {bs : List UInt8} :
    i ∈ wordStartsFrom word before k bs ↔
      ∃ n, n < bs.length ∧ i = k + n ∧
        wordHere word (precedingByte before bs n) (bs.drop n) = true := by
  induction bs generalizing before k with
  | nil => simp [wordStartsFrom]
  | cons b bs ih =>
    have later : i ∈ wordStartsFrom word (some b) (k + 1) bs ↔
        ∃ n, n + 1 < (b :: bs).length ∧ i = k + (n + 1) ∧
          wordHere word (precedingByte before (b :: bs) (n + 1)) ((b :: bs).drop (n + 1)) = true := by
      rw [ih]
      constructor
      · rintro ⟨n, hn, rfl, hw⟩
        refine ⟨n, by simpa using hn, by omega, ?_⟩
        cases n <;> simpa [precedingByte] using hw
      · rintro ⟨n, hn, rfl, hw⟩
        refine ⟨n, by simpa using hn, by omega, ?_⟩
        cases n <;> simpa [precedingByte] using hw
    have here : (∃ n, n < (b :: bs).length ∧ i = k + n ∧
        wordHere word (precedingByte before (b :: bs) n) ((b :: bs).drop n) = true) ↔
        (i = k ∧ wordHere word before (b :: bs) = true) ∨
          i ∈ wordStartsFrom word (some b) (k + 1) bs := by
      rw [later]
      constructor
      · rintro ⟨n, hn, hi, hw⟩
        cases n with
        | zero => exact .inl ⟨hi, hw⟩
        | succ n => exact .inr ⟨n, hn, hi, hw⟩
      · rintro (⟨hi, hw⟩ | ⟨n, hn, hi, hw⟩)
        · exact ⟨0, by simp, hi, hw⟩
        · exact ⟨n + 1, hn, hi, hw⟩
    rw [here, wordStartsFrom]
    split
    · rename_i hw
      rw [List.mem_cons]
      simp [hw]
    · rename_i hw
      simp [hw]

theorem precedingByte_none (m : Masked) (i : Nat) :
    precedingByte none m.bytes i = m.byteBefore i := by
  cases i <;> rfl

/-- `wordStarts` misses no place of the word and lists no other. -/
theorem mem_wordStarts {m : Masked} {word : String} {i : Nat} :
    i ∈ m.wordStarts word ↔ i < m.size ∧ m.wordAt word.toList i = true := by
  unfold wordStarts
  rw [mem_wordStartsFrom]
  constructor
  · rintro ⟨n, hn, rfl, hw⟩
    rw [precedingByte_none] at hw
    rw [Nat.zero_add]
    exact ⟨hn, hw⟩
  · rintro ⟨hi, hw⟩
    exact ⟨i, hi, (Nat.zero_add i).symm, by rw [precedingByte_none]; exact hw⟩

theorem pairwise_wordStartsFrom (word : List UInt8) (before : Option UInt8) (k : Nat)
    (bs : List UInt8) : (wordStartsFrom word before k bs).Pairwise (· < ·) := by
  induction bs generalizing before k with
  | nil => exact List.Pairwise.nil
  | cons b bs ih =>
    rw [wordStartsFrom]
    split
    · refine List.pairwise_cons.2 ⟨fun i hi => ?_, ih (some b) (k + 1)⟩
      obtain ⟨n, -, rfl, -⟩ := mem_wordStartsFrom.1 hi
      omega
    · exact ih (some b) (k + 1)

/-- The places of a word are listed from left to right. -/
theorem pairwise_wordStarts (m : Masked) (word : String) :
    (m.wordStarts word).Pairwise (· < ·) :=
  pairwise_wordStartsFrom _ _ _ _

/-- Where a word stands its bytes stand. -/
theorem isPrefixOf_of_wordAt {m : Masked} {word : List Char} {i : Nat}
    (h : m.wordAt word i = true) : (Text.bytes word).isPrefixOf (m.bytes.drop i) = true := by
  unfold wordAt wordHere at h
  simp only [Bool.and_eq_true] at h
  exact h.1.1

/-- Where a word stands each of its bytes stands. -/
theorem getElem?_of_wordAt {m : Masked} {word : List Char} {i : Nat} (h : m.wordAt word i = true) {k : Nat}
    {b : UInt8} (hb : (Text.bytes word)[k]? = some b) : m.bytes[i + k]? = some b :=
  Text.getElem?_of_isPrefixOf (isPrefixOf_of_wordAt h) hb

/-- A byte that is none of a word's stands behind the word. -/
theorem add_length_le_of_wordAt {m : Masked} {word : List Char} {i k : Nat} {b : UInt8}
    (h : m.wordAt word i = true) (hik : i ≤ k) (hk : m.bytes[k]? = some b)
    (hb : b ∉ Text.bytes word) : i + (Text.bytes word).length ≤ k := by
  refine Nat.le_of_not_lt fun hlt => hb ?_
  have hn : k - i < (Text.bytes word).length := by omega
  have hsame := getElem?_of_wordAt h (List.getElem?_eq_getElem hn)
  rw [Nat.add_sub_cancel' hik, hk] at hsame
  exact Option.some.inj hsame ▸ List.getElem_mem hn

/-- Two places of a whole word do not overlap. -/
theorem add_length_le_of_lt {m : Masked} {word : List Char} {i j : Nat}
    (hword : ∀ b ∈ Text.bytes word, isWordByte b = true) (hi : m.wordAt word i = true)
    (hj : m.wordAt word j = true) (hij : i < j) : i + (Text.bytes word).length ≤ j := by
  refine Nat.le_of_not_lt fun hlt => ?_
  obtain ⟨n, rfl⟩ : ∃ n, j = i + n + 1 := ⟨j - i - 1, by omega⟩
  have hn : n < (Text.bytes word).length := by omega
  have hbyte : m.byteBefore (i + n + 1) = some (Text.bytes word)[n] :=
    getElem?_of_wordAt hi (List.getElem?_eq_getElem hn)
  unfold wordAt wordHere at hj
  rw [hbyte] at hj
  simp only [Bool.and_eq_true, breaksWord, hword _ (List.getElem_mem hn)] at hj
  exact absurd hj.1.2 (by decide)

/-! ## Words between line feeds -/

/-- A word stands before a byte that is not its own as it stands without it. -/
theorem wordHere_of_append_cons {word bs rest : List UInt8} {b : UInt8} {before before' : Option UInt8}
    (hword : b ∉ word) (hbefore : breaksWord before = true → breaksWord before' = true)
    (h : wordHere word before (bs ++ b :: rest) = true) : wordHere word before' bs = true := by
  unfold wordHere at h ⊢
  simp only [Bool.and_eq_true] at h ⊢
  obtain ⟨⟨hbegins, hbreaks⟩, hafter⟩ := h
  have hhere := Text.isPrefixOf_of_not_mem hbegins hword
  refine ⟨⟨hhere, hbefore hbreaks⟩, ?_⟩
  obtain ⟨later, rfl⟩ := List.isPrefixOf_iff_prefix.1 hhere
  rw [List.append_assoc, List.drop_left] at hafter
  rw [List.drop_left]
  cases later with
  | nil => rfl
  | cons b' later => exact hafter

/-- A word that does not stand in a text does not stand in it between line feeds. -/
theorem wordStarts_between_newlines {m m' : Masked} {word : String}
    (h : m.wordStarts word = []) (hword : '\n'.toUInt8 ∉ Text.bytes word.toList)
    (hbytes : m'.bytes = '\n'.toUInt8 :: (m.bytes ++ ['\n'.toUInt8])) (hne : word.toList ≠ []) :
    m'.wordStarts word = [] := by
  refine List.eq_nil_iff_forall_not_mem.2 fun i hi => ?_
  obtain ⟨hsize, hwordAt⟩ := mem_wordStarts.1 hi
  obtain ⟨b, bs, hcons⟩ : ∃ b bs, Text.bytes word.toList = b :: bs := by
    cases hb : Text.bytes word.toList with
    | nil => exact absurd (Text.bytes_injective (hb.trans Text.bytes_nil.symm)) hne
    | cons b bs => exact ⟨b, bs, rfl⟩
  have hfirst : m'.bytes[i]? = some b := by
    have := getElem?_of_wordAt hwordAt (show (Text.bytes word.toList)[0]? = some b by rw [hcons]; rfl)
    exact this
  have hb : b ≠ '\n'.toUInt8 := by
    rintro rfl
    exact hword (hcons ▸ List.mem_cons_self)
  cases i with
  | zero =>
    rw [hbytes] at hfirst
    exact hb (Option.some.inj hfirst).symm
  | succ n =>
    rw [hbytes, List.getElem?_cons_succ] at hfirst
    have hn : n < m.size := by
      refine Nat.lt_of_not_le fun hge => hb ?_
      rw [List.getElem?_append_right hge] at hfirst
      have := List.mem_of_getElem? hfirst
      exact List.mem_singleton.1 this
    have hhere : m.wordAt word.toList n = true := by
      unfold wordAt at hwordAt ⊢
      rw [hbytes, List.drop_succ_cons, List.drop_append_of_le_length (Nat.le_of_lt hn)] at hwordAt
      refine wordHere_of_append_cons hword (fun hbreaks => ?_) hwordAt
      cases n with
      | zero => rfl
      | succ k =>
        have hk : m'.byteBefore (k + 1 + 1) = m.byteBefore (k + 1) := by
          show m'.bytes[k + 1]? = m.bytes[k]?
          rw [hbytes, List.getElem?_cons_succ]
          exact List.getElem?_append_left (Nat.lt_of_succ_lt hn)
        rwa [← hk]
    have := mem_wordStarts.2 ⟨hn, hhere⟩
    rw [h] at this
    exact absurd this List.not_mem_nil

/-! ## Borders of words -/

theorem isWordByte_eq_false {b : UInt8} (h : 0x80 ≤ b) : isWordByte b = false := by
  have hb : 128 ≤ b.toNat := h
  refine Bool.eq_false_iff.2 fun hword => ?_
  unfold isWordByte at hword
  simp only [Bool.or_eq_true, Bool.and_eq_true, decide_eq_true_eq, beq_iff_eq] at hword
  rcases hword with ((⟨-, hw⟩ | ⟨-, hw⟩) | ⟨-, hw⟩) | rfl
  · have hw : b.toNat ≤ 57 := hw
    omega
  · have hw : b.toNat ≤ 90 := hw
    omega
  · have hw : b.toNat ≤ 122 := hw
    omega
  · exact absurd hb (by decide)

/-- The bytes of words are the characters of words. -/
theorem isWordByte_toUInt8 {c : Char} (hc : c.utf8Size = 1) :
    isWordByte c.toUInt8 = isWordChar c := by
  have hlt : c.toNat < 128 := by
    have : c.toNat ≤ 127 := Char.utf8Size_eq_one_iff.1 hc
    omega
  have hall : ∀ n < 128, isWordByte (Char.ofNat n).toUInt8 = isWordChar (Char.ofNat n) := by decide
  have := hall c.toNat hlt
  rwa [Char.ofNat_toNat] at this

theorem isWordChar_of_wide {c : Char} (hc : c.utf8Size ≠ 1) : isWordChar c = false := by
  refine Bool.eq_false_iff.2 fun hword => hc (Char.utf8Size_eq_one_iff.2 ?_)
  have hunder : c = '_' → c.toNat = 95 := fun h => by rw [h]; rfl
  unfold isWordChar Char.isAlphanum Char.isAlpha Char.isUpper Char.isLower Char.isDigit at hword
  simp only [Bool.or_eq_true, Bool.and_eq_true, decide_eq_true_eq, beq_iff_eq, ge_iff_le,
    UInt32.le_iff_toNat_le] at hword
  refine UInt32.le_iff_toNat_le.2 ?_
  rcases hword with hword | hword
  · simp only [Char.isValue, Char.reduceVal, UInt32.reduceToNat] at hword ⊢
    omega
  · have := hunder hword
    simp only [UInt32.reduceToNat, Char.toNat_val] at this ⊢
    omega

theorem isWordByte_of_isWordStart {b : UInt8} (h : isWordStart b = true) : isWordByte b = true := by
  unfold isWordStart at h
  unfold isWordByte
  simp only [Bool.or_eq_true] at h ⊢
  rcases h with (h | h) | h
  · exact .inl (.inl (.inr h))
  · exact .inl (.inr h)
  · exact .inr h

/-- The bytes of words are bytes of code. -/
theorem lt_of_isWordByte {b : UInt8} (h : isWordByte b = true) : b < 0x80 ∧ b ≠ 0x20 := by
  refine ⟨UInt8.not_le.1 fun hle => ?_, ?_⟩
  · rw [isWordByte_eq_false hle] at h
    exact Bool.false_ne_true h
  · rintro rfl
    exact absurd h (by decide)

/-- No word goes on across a character that no word holds. -/
theorem breaksWord_char {c : Char} (h : c.utf8Size = 1 → isWordByte c.toUInt8 = false)
    (rest : List UInt8) : breaksWord (String.utf8EncodeChar c ++ rest).head? = true := by
  by_cases hc : c.utf8Size = 1
  · rw [Text.utf8EncodeChar_of_narrow hc]
    show (!isWordByte c.toUInt8) = true
    rw [h hc]
    rfl
  · cases hb : String.utf8EncodeChar c with
    | nil => exact absurd hb String.utf8EncodeChar_ne_nil
    | cons b bs =>
      have := Text.le_of_mem_wide hc (hb ▸ List.mem_cons_self)
      show (!isWordByte b) = true
      rw [isWordByte_eq_false this]
      rfl

theorem breaksWord_of_isBlank {c : Char} (h : Text.isBlank c = true) (rest : List UInt8) :
    breaksWord (String.utf8EncodeChar c ++ rest).head? = true := by
  refine breaksWord_char (fun hc => ?_) rest
  rcases Text.eq_of_isBlank h hc with rfl | rfl | rfl | rfl | rfl | rfl <;> rfl

/-- A text begins with its word, and no word goes on behind that. -/
theorem exists_word (cs : List Char) : ∃ a b, cs = a ++ b ∧
    (∀ x ∈ Text.bytes a, isWordByte x = true) ∧
    ∀ rest, breaksWord (Text.bytes (b ++ ' ' :: rest)).head? = true := by
  induction cs with
  | nil => exact ⟨[], [], rfl, nofun, fun rest => rfl⟩
  | cons c cs ih =>
    by_cases hc : c.utf8Size = 1 ∧ isWordByte c.toUInt8 = true
    · obtain ⟨a, b, rfl, ha, hb⟩ := ih
      refine ⟨c :: a, b, rfl, fun x hx => ?_, hb⟩
      rw [Text.bytes_cons_of_narrow hc.1] at hx
      rcases List.mem_cons.1 hx with rfl | hx
      · exact hc.2
      · exact ha x hx
    · refine ⟨[], c :: cs, rfl, nofun, fun rest => ?_⟩
      rw [List.cons_append, Text.bytes_cons]
      exact breaksWord_char (fun hnarrow => Bool.eq_false_iff.2 fun hword => hc ⟨hnarrow, hword⟩) _

end Masked

end RpcBindings
