import RpcBindings.Go.Identifier
import RpcBindings.Proofs.Masked.Reading

/-!
Identifiers in masked texts.

An identifier is a word: its characters have one byte each and can stand in a word, so nothing that a
search looks for stands in it, and it ends where the next character is not of its kind.
-/

namespace RpcBindings

open Masked

namespace Go

/-- A text that is an ASCII identifier. -/
def IsName (t : List Char) : Prop :=
  isIdentifier (.ofList t) = true

instance (t : List Char) : Decidable (IsName t) :=
  inferInstanceAs (Decidable (_ = _))

theorem exists_cons_of_isName {t : List Char} (h : IsName t) :
    ∃ c cs, t = c :: cs ∧ isLetter c = true ∧ cs.all isLetterOrDigit = true := by
  unfold IsName isIdentifier at h
  rw [String.toList_ofList] at h
  cases t with
  | nil => exact absurd h Bool.false_ne_true
  | cons c cs =>
    rw [Bool.and_eq_true] at h
    exact ⟨c, cs, rfl, h.1, h.2⟩

theorem isName_toList {s : String} (h : isIdentifier s = true) : IsName s.toList := by
  unfold IsName
  rw [String.ofList_toList]
  exact h

/-! ## Characters -/

theorem toNat_toUInt8 {c : Char} (h : c.toNat < 128) : c.toUInt8.toNat = c.toNat := by
  show (UInt8.ofNat c.toNat).toNat = c.toNat
  rw [UInt8.toNat_ofNat']
  omega

theorem utf8Size_of_lt {c : Char} (h : c.toNat < 128) : c.utf8Size = 1 := by
  refine Char.utf8Size_eq_one_iff.2 (UInt32.le_iff_toNat_le.2 ?_)
  show c.toNat ≤ 127
  omega

/-- The characters of identifiers are the bytes of words. -/
theorem isWordByte_of_isLetterOrDigit {c : Char} (h : isLetterOrDigit c = true) :
    c.utf8Size = 1 ∧ isWordByte c.toUInt8 = true := by
  unfold isLetterOrDigit Char.isAlphanum Char.isAlpha Char.isUpper Char.isLower Char.isDigit at h
  simp only [Bool.or_eq_true, Bool.and_eq_true, decide_eq_true_eq, beq_iff_eq, ge_iff_le,
    UInt32.le_iff_toNat_le] at h
  have hc : c.val.toNat = c.toNat := rfl
  have hbytes : (48 ≤ c.toNat ∧ c.toNat ≤ 57) ∨ (65 ≤ c.toNat ∧ c.toNat ≤ 90) ∨
      (97 ≤ c.toNat ∧ c.toNat ≤ 122) ∨ c.toNat = 95 := by
    rcases h with ((h | h) | h) | rfl
    · exact .inr (.inl ⟨h.1, h.2⟩)
    · exact .inr (.inr (.inl ⟨h.1, h.2⟩))
    · exact .inl ⟨h.1, h.2⟩
    · exact .inr (.inr (.inr rfl))
  have hlt : c.toNat < 128 := by omega
  refine ⟨utf8Size_of_lt hlt, ?_⟩
  have hbyte := toNat_toUInt8 hlt
  unfold isWordByte
  simp only [Bool.or_eq_true, Bool.and_eq_true, decide_eq_true_eq, beq_iff_eq,
    UInt8.le_iff_toNat_le, ← UInt8.toNat_inj, hbyte]
  rcases hbytes with h | h | h | h
  · exact .inl (.inl (.inl h))
  · exact .inl (.inl (.inr h))
  · exact .inl (.inr h)
  · exact .inr h

theorem isLetterOrDigit_of_isLetter {c : Char} (h : isLetter c = true) :
    isLetterOrDigit c = true := by
  unfold isLetter at h
  unfold isLetterOrDigit Char.isAlphanum
  rw [Bool.or_eq_true] at h ⊢
  rcases h with h | h
  · exact .inl (by rw [h, Bool.true_or])
  · exact .inr h

theorem isWordStart_of_isLetter {c : Char} (h : isLetter c = true) :
    isWordStart c.toUInt8 = true := by
  unfold isLetter Char.isAlpha Char.isUpper Char.isLower at h
  simp only [Bool.or_eq_true, Bool.and_eq_true, decide_eq_true_eq, beq_iff_eq, ge_iff_le,
    UInt32.le_iff_toNat_le] at h
  have hbytes : (65 ≤ c.toNat ∧ c.toNat ≤ 90) ∨ (97 ≤ c.toNat ∧ c.toNat ≤ 122) ∨
      c.toNat = 95 := by
    rcases h with (h | h) | rfl
    · exact .inl ⟨h.1, h.2⟩
    · exact .inr (.inl ⟨h.1, h.2⟩)
    · exact .inr (.inr rfl)
  have hbyte := toNat_toUInt8 (c := c) (by omega)
  unfold isWordStart
  simp only [Bool.or_eq_true, Bool.and_eq_true, decide_eq_true_eq, beq_iff_eq,
    UInt8.le_iff_toNat_le, ← UInt8.toNat_inj, hbyte]
  rcases hbytes with h | h | h
  · exact .inl (.inl h)
  · exact .inl (.inr h)
  · exact .inr h

/-- A character that no word holds is none of a word's. -/
theorem ne_of_isWordByte {c d : Char} (h : isWordByte c.toUInt8 = true)
    (hd : isWordByte d.toUInt8 = false) : c ≠ d := by
  rintro rfl
  rw [hd] at h
  exact Bool.false_ne_true h

/-- A character of a word is no blank. -/
theorem not_isBlank_of_isWordByte {c : Char} (h : c.utf8Size = 1 ∧ isWordByte c.toUInt8 = true) :
    Text.isBlank c = false := by
  refine Bool.eq_false_iff.2 fun hblank => ?_
  have hword := h.2
  rcases Text.eq_of_isBlank hblank h.1 with rfl | rfl | rfl | rfl | rfl | rfl <;>
    exact absurd hword (by decide)

namespace IsName

variable {t : List Char}

theorem ne_nil (h : IsName t) : t ≠ [] := by
  obtain ⟨c, cs, rfl, -⟩ := exists_cons_of_isName h
  exact List.cons_ne_nil c cs

theorem isWordByte_char (h : IsName t) {c : Char} (hc : c ∈ t) :
    c.utf8Size = 1 ∧ isWordByte c.toUInt8 = true := by
  obtain ⟨d, ds, rfl, hd, hds⟩ := exists_cons_of_isName h
  rcases List.mem_cons.1 hc with rfl | hc
  · exact isWordByte_of_isLetterOrDigit (isLetterOrDigit_of_isLetter hd)
  · exact isWordByte_of_isLetterOrDigit (List.all_eq_true.1 hds c hc)

theorem isWordByte_bytes (h : IsName t) {b : UInt8} (hb : b ∈ Text.bytes t) :
    isWordByte b = true := by
  obtain ⟨c, hc, hb⟩ := List.mem_flatMap.1 hb
  obtain ⟨hsize, hword⟩ := h.isWordByte_char hc
  rw [Text.utf8EncodeChar_of_narrow hsize, List.mem_singleton] at hb
  rw [hb]
  exact hword

theorem not_isBlank (h : IsName t) : ∀ c ∈ t, Text.isBlank c = false := fun _ hc =>
  not_isBlank_of_isWordByte (h.isWordByte_char hc)

theorem ne_of_mem (h : IsName t) {c d : Char} (hc : c ∈ t) (hd : isWordByte d.toUInt8 = false) :
    c ≠ d :=
  ne_of_isWordByte (h.isWordByte_char hc).2 hd

theorem isBare (h : IsName t) : isBare t = true := by
  refine isBare_of_all (List.all_eq_true.2 fun c hc => ?_)
  unfold isBareChar
  simp only [Bool.and_eq_true, bne_iff_ne]
  exact ⟨⟨⟨h.ne_of_mem hc (by decide), h.ne_of_mem hc (by decide)⟩, h.ne_of_mem hc (by decide)⟩,
    h.ne_of_mem hc (by decide)⟩

theorem solid (h : IsName t) : Solid t := by
  refine ⟨closed_of_isBare h.isBare, fun hlast => ?_⟩
  exact h.ne_of_mem (List.mem_of_getLast? hlast) (by decide) rfl

theorem mask_eq (h : IsName t) : mask .go t = t :=
  mask_of_isBare h.isBare

theorem not_mem_bytes (h : IsName t) {b : UInt8} (hb : isWordByte b = false) :
    b ∉ Text.bytes t := by
  intro hmem
  rw [h.isWordByte_bytes hmem] at hb
  exact Bool.false_ne_true hb.symm

end IsName

end Go

namespace Masked

/-- Bytes of words neither open nor close. -/
theorem isPlain_of_isWordByte {b : UInt8} (h : isWordByte b = true) : isPlain b = true := by
  unfold isPlain
  rw [Bool.and_eq_true, Option.isNone_iff_eq_none, Option.isNone_iff_eq_none]
  constructor
  · cases hd : Delimiter.ofOpener? b with
    | none => rfl
    | some d =>
      rw [Delimiter.eq_opener_of_ofOpener? hd] at h
      revert h
      cases d <;> decide
  · cases hd : Delimiter.ofCloser? b with
    | none => rfl
    | some d =>
      rw [Delimiter.eq_closer_of_ofCloser? hd] at h
      revert h
      cases d <;> decide

end Masked

namespace Go

theorem IsName.plain {t : List Char} (h : IsName t) : Plain t := by
  refine List.all_eq_true.2 fun c hc => ?_
  obtain ⟨hsize, hword⟩ := h.isWordByte_char hc
  have hbare : isBareChar c = true := by
    unfold isBareChar
    simp only [Bool.and_eq_true, bne_iff_ne]
    exact ⟨⟨⟨h.ne_of_mem hc (by decide), h.ne_of_mem hc (by decide)⟩,
      h.ne_of_mem hc (by decide)⟩, h.ne_of_mem hc (by decide)⟩
  unfold isPlainChar
  rw [hsize, hbare, isPlain_of_isWordByte hword]
  rfl

end Go

namespace Masked

variable {m : Masked} {i : Nat} {t rest : List Char}

/-- An identifier is found where it stands, when no word goes on behind it. -/
theorem CodeFrom.identAt?_name (h : m.CodeFrom i (t ++ rest)) (ht : Go.IsName t)
    (hrest : breaksWord (Text.bytes rest).head? = true) :
    m.identAt? i = some ⟨i, i + Text.byteLength t⟩ := by
  obtain ⟨c, cs, rfl, hc, -⟩ := Go.exists_cons_of_isName ht
  refine h.identAt? (Go.isWordStart_of_isLetter hc) (ht.isWordByte_char List.mem_cons_self).1
    (fun b hb => ht.isWordByte_bytes ?_) hrest
  rw [Text.bytes_cons]
  exact List.mem_append_right _ hb

/-- The name before a parenthesis is found behind a space. -/
theorem TextFrom.nameAfter?_name (ht : Go.IsName t) (h : m.TextFrom i (' ' :: (t ++ '(' :: rest))) :
    m.nameAfter? i = some ⟨i + 1, i + 1 + Text.byteLength t⟩ := by
  have hname := (h.drop_char (by decide)).code_plain ht.plain
  have hcode := h.2
  obtain ⟨c, cs, heq, -⟩ := Go.exists_cons_of_isName ht
  have hskip : m.skipBlank? i = some (i + 1) := by
    have hc := ht.not_isBlank c (heq ▸ List.mem_cons_self)
    rw [mask_cons (by decide), ht.solid.mask_append, ht.mask_eq, heq] at hcode
    exact CodeFrom.skipBlank? (a := [' ']) hcode (by decide) hc
  unfold nameAfter?
  rw [hskip, Option.bind_some]
  refine hname.identAt?_name ht ?_
  rw [mask_cons (by decide), Text.bytes_cons_of_narrow (by decide)]
  rfl

end Masked

end RpcBindings
