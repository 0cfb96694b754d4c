import Mathlib.Order.Bounds.Basic
import RpcBindings.Proofs.Masked.Word

/-!
Searching for a word.

The search takes the bytes one by one. It gives up when it would go on inside a character, which
cannot happen behind an ASCII byte, so what it finds is the head of the list of all places from the
start on (`map_searchWord`). That list is sorted, and the search finds its least place
(`findWord_iff`).
-/

namespace RpcBindings.Masked

variable {m : Masked} {word : List Char} {start i : Nat}

/-- The word stands at the offset, and no byte of a word stands directly before it or behind it. -/
structure StandsAlone (m : Masked) (word : List Char) (i : Nat) : Prop where
  here : ∀ k b, (Text.bytes word)[k]? = some b → m.bytes[i + k]? = some b
  before : ∀ k b, k + 1 = i → m.bytes[k]? = some b → isWordByte b = false
  behind : ∀ b, m.bytes[i + Text.byteLength word]? = some b → isWordByte b = false

theorem breaksWord_iff {b? : Option UInt8} :
    breaksWord b? = true ↔ ∀ b, b? = some b → isWordByte b = false := by
  cases b? with
  | none => exact ⟨fun _ => nofun, fun _ => rfl⟩
  | some b =>
    show (!isWordByte b) = true ↔ _
    rw [Bool.not_eq_true']
    exact ⟨fun h x hx => Option.some.inj hx ▸ h, fun h => h b rfl⟩

theorem standsAlone_iff : m.StandsAlone word i ↔ m.wordAt word i = true := by
  have hbefore : breaksWord (m.byteBefore i) = true ↔
      ∀ k b, k + 1 = i → m.bytes[k]? = some b → isWordByte b = false := by
    rw [breaksWord_iff]
    cases i with
    | zero => exact ⟨fun _ => nofun, fun _ => nofun⟩
    | succ k =>
      refine ⟨fun h n b hn hb => h b ?_, fun h b hb => h k b rfl hb⟩
      obtain rfl := Nat.succ.inj hn
      exact hb
  have hbehind : breaksWord ((m.bytes.drop i).drop (Text.bytes word).length).head? = true ↔
      ∀ b, m.bytes[i + Text.byteLength word]? = some b → isWordByte b = false := by
    rw [breaksWord_iff, List.drop_drop, List.head?_drop, Text.length_bytes]
  unfold wordAt wordHere
  rw [Bool.and_eq_true, Bool.and_eq_true, hbefore, hbehind]
  constructor
  · rintro ⟨hhere, hbreaks, hends⟩
    refine ⟨⟨?_, hbreaks⟩, hends⟩
    rw [List.isPrefixOf_iff_prefix, List.prefix_iff_getElem?]
    intro k hk
    rw [List.getElem?_drop]
    exact hhere k _ (List.getElem?_eq_getElem hk)
  · rintro ⟨⟨hhere, hbreaks⟩, hends⟩
    exact ⟨fun k b hb => Text.getElem?_of_isPrefixOf hhere hb, hbreaks, hends⟩

/-- A word of some characters stands inside the text. -/
theorem StandsAlone.lt_size (h : m.StandsAlone word i) (hne : word ≠ []) : i < m.size := by
  cases hb : Text.bytes word with
  | nil => exact absurd (Text.bytes_injective (hb.trans Text.bytes_nil.symm)) hne
  | cons b bs =>
    have hfirst := h.here 0 b (by rw [hb]; rfl)
    exact (List.getElem?_eq_some_iff.1 hfirst).1

/-! ## The search and the list of all places -/

/-- The search finds the first of all places of a word that begins with an ASCII byte. -/
theorem map_searchWord {b : UInt8} {bs : List UInt8} (hb : b < 0x80) {text : List UInt8}
    (htext : Text.Unbroken text) (before : Option UInt8) (k : Nat) :
    (searchWord (b :: bs) before text).map (k + ·) =
      (wordStartsFrom (b :: bs) before k text).head? := by
  induction text generalizing before k with
  | nil => rfl
  | cons x text ih =>
    have hlater : ((searchWord (b :: bs) (some x) text).map (· + 1)).map (k + ·) =
        (wordStartsFrom (b :: bs) (some x) (k + 1) text).head? := by
      rw [← ih htext.tail, Option.map_map]
      refine congrArg (fun f => Option.map f _) ?_
      funext n
      show k + (n + 1) = k + 1 + n
      omega
    rw [searchWord, wordStartsFrom]
    by_cases hhere : wordHere (b :: bs) before (x :: text) = true
    · have hprefix : (b :: bs).isPrefixOf (x :: text) = true := by
        unfold wordHere at hhere
        simp only [Bool.and_eq_true] at hhere
        exact hhere.1.1
      rw [if_pos hprefix, if_pos hhere, if_pos hhere]
      rfl
    · rw [if_neg hhere, if_neg hhere]
      split
      · rename_i hprefix
        obtain ⟨rest, hrest⟩ := List.isPrefixOf_iff_prefix.1 hprefix
        obtain ⟨rfl, -⟩ := List.cons.inj hrest
        -- the rejected place begins with an ASCII byte, and behind that a character begins
        have hinside : startsInside text = false := htext 0 b rfl hb
        rw [hinside, if_neg Bool.false_ne_true]
        exact hlater
      · exact hlater

theorem precedingByte_drop (m : Masked) (start n : Nat) :
    precedingByte (m.byteBefore start) (m.bytes.drop start) n = m.byteBefore (start + n) := by
  cases n with
  | zero => rfl
  | succ n => exact List.getElem?_drop

/-- The places from an offset on are those of the whole text that do not stand before it. -/
theorem mem_wordStartsFrom_drop (hne : word ≠ []) :
    i ∈ wordStartsFrom (Text.bytes word) (m.byteBefore start) start (m.bytes.drop start) ↔
      start ≤ i ∧ m.StandsAlone word i := by
  rw [mem_wordStartsFrom]
  constructor
  · rintro ⟨n, -, rfl, hword⟩
    rw [precedingByte_drop, List.drop_drop] at hword
    exact ⟨Nat.le_add_right start n, standsAlone_iff.2 hword⟩
  · rintro ⟨hle, hword⟩
    obtain ⟨n, rfl⟩ := Nat.exists_eq_add_of_le hle
    have hlt : start + n < m.bytes.length := hword.lt_size hne
    refine ⟨n, by rw [List.length_drop]; omega, rfl, ?_⟩
    rw [precedingByte_drop, List.drop_drop]
    exact standsAlone_iff.1 hword

theorem isBoundary_of_isBoundary_code (h : Text.IsBoundary m.code i) : m.isBoundary i = true := by
  obtain ⟨a, b, hcode, rfl⟩ := h
  have hle : Text.byteLength a ≤ m.size := by
    unfold size
    rw [m.bytes_eq, hcode, Text.length_bytes, Text.byteLength_append]
    exact Nat.le_add_right _ _
  unfold isBoundary
  rw [m.bytes_eq, hcode, Text.drop_bytes_append, Text.startsInside_bytes, decide_eq_true hle]
  rfl

/-- From a boundary on the search finds the first of all places of a word. -/
theorem findWord_eq_head? (hne : word ≠ []) (hword : ∀ c ∈ word, c.utf8Size = 1)
    (h : Text.IsBoundary m.code start) :
    m.findWord word start =
      (wordStartsFrom (Text.bytes word) (m.byteBefore start) start (m.bytes.drop start)).head? := by
  have hunbroken : Text.Unbroken (m.bytes.drop start) := by
    rw [m.bytes_eq]
    exact (Text.unbroken_bytes m.code).drop start
  unfold findWord
  rw [if_pos (isBoundary_of_isBoundary_code h)]
  cases word with
  | nil => exact absurd rfl hne
  | cons c cs =>
    have hc := hword c List.mem_cons_self
    rw [Text.bytes_cons_of_narrow hc]
    exact map_searchWord (Text.toUInt8_lt_of_narrow hc) hunbroken _ _

/-- Where a word is found it stands alone. -/
theorem standsAlone_of_findWord {p : Nat} (hne : word ≠ []) (hword : ∀ c ∈ word, c.utf8Size = 1)
    (h : Text.IsBoundary m.code start) (hp : m.findWord word start = some p) :
    m.StandsAlone word p := by
  rw [findWord_eq_head? hne hword h] at hp
  exact ((mem_wordStartsFrom_drop hne).1 (List.mem_of_head? hp)).2

theorem head?_eq_some_iff_isLeast {l : List Nat} (h : l.Pairwise (· < ·)) (p : Nat) :
    l.head? = some p ↔ IsLeast {i | i ∈ l} p := by
  cases l with
  | nil => exact ⟨nofun, fun hp => absurd hp.1 List.not_mem_nil⟩
  | cons x l =>
    have hleast : IsLeast {i | i ∈ x :: l} x := by
      refine ⟨List.mem_cons_self, fun i hi => ?_⟩
      rcases List.mem_cons.1 hi with rfl | hi
      · exact Nat.le_refl _
      · exact Nat.le_of_lt (List.rel_of_pairwise_cons h hi)
    exact ⟨fun hp => Option.some.inj hp ▸ hleast, fun hp => congrArg some (hleast.unique hp)⟩

/-- The search for an ASCII word from a boundary of the masked text on finds the least offset from
there on at which the word stands alone, and finds nothing exactly when there is none. -/
theorem findWord_iff (hne : word ≠ []) (hword : ∀ c ∈ word, c.utf8Size = 1)
    (h : Text.IsBoundary m.code start) :
    (∀ p, m.findWord word start = some p ↔
      IsLeast {i | start ≤ i ∧ m.StandsAlone word i} p) ∧
    (m.findWord word start = none ↔ ∀ i, start ≤ i → ¬m.StandsAlone word i) := by
  have hmem {i : Nat} := @mem_wordStartsFrom_drop m word start i hne
  have hset : {i | i ∈ wordStartsFrom (Text.bytes word) (m.byteBefore start) start
      (m.bytes.drop start)} = {i | start ≤ i ∧ m.StandsAlone word i} :=
    Set.ext fun i => hmem
  rw [findWord_eq_head? hne hword h]
  constructor
  · intro p
    rw [head?_eq_some_iff_isLeast (pairwise_wordStartsFrom _ _ _ _), hset]
  · rw [List.head?_eq_none_iff, List.eq_nil_iff_forall_not_mem]
    refine forall_congr' fun i => ?_
    rw [hmem, not_and]

/-- Words that stand alone, within longer words, in a comment and in a literal. -/
def wordyLine : Masked :=
  .ofSource .rust "fnfn é fn_ /* fn */ \"fn\" fn".toList

theorem findWord_iff_wordyLine :
    Text.IsBoundary wordyLine.code 2 ∧ wordyLine.findWord "fn".toList 2 = some 26 ∧
      IsLeast {i | 2 ≤ i ∧ wordyLine.StandsAlone "fn".toList i} 26 ∧
      Text.IsBoundary wordyLine.code 27 ∧ ∀ i, 27 ≤ i → ¬wordyLine.StandsAlone "fn".toList i := by
  have hword : ∀ c ∈ "fn".toList, c.utf8Size = 1 := by decide
  have hearly : Text.IsBoundary wordyLine.code 2 := by decide +kernel
  have hlate : Text.IsBoundary wordyLine.code 27 := by decide +kernel
  have hfound : wordyLine.findWord "fn".toList 2 = some 26 := by decide +kernel
  have hnone : wordyLine.findWord "fn".toList 27 = none := by decide +kernel
  exact ⟨hearly, hfound, ((findWord_iff (by decide) hword hearly).1 26).1 hfound, hlate,
    (findWord_iff (by decide) hword hlate).2.1 hnone⟩

end RpcBindings.Masked
