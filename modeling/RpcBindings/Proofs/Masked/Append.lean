import RpcBindings.Proofs.Masked.Index
import RpcBindings.Proofs.Masked.Line
import RpcBindings.Proofs.Text.Content

/-!
Masked texts one after the other.

`a.append b` is the masked text that is made of two. A search that begins in the second one finds what
it finds there, moved by the size of the first (`closer?_append_add` and the like). A search that
begins in the first one and ends there finds the same without the second (`closer?_append` and the
like). Words and lines do not reach across the seam when the first text consists of whole lines.
-/

namespace RpcBindings

/-- A part of a text that stands some bytes further on. -/
def Span.shift (n : Nat) (s : Span) : Span :=
  ⟨n + s.start, n + s.stop⟩

namespace Masked

/-- Two masked texts, one after the other. -/
def append (a b : Masked) : Masked :=
  ⟨a.source ++ b.source, a.code ++ b.code, a.bytes ++ b.bytes, by
    rw [a.bytes_eq, b.bytes_eq, Text.bytes_append]⟩

/-- A source is masked part by part when its copy is. -/
theorem ofSource_append {lang : SourceLang} {s t : List Char}
    (h : mask lang (s ++ t) = mask lang s ++ mask lang t) :
    ofSource lang (s ++ t) = (ofSource lang s).append (ofSource lang t) := by
  unfold ofSource append
  simp only [h, Text.bytes_append]

/-- The text consists of whole lines, its copy has its offsets, and both can be cut around a byte of
code. -/
structure Lined (a : Masked) : Prop where
  size_eq : a.size = a.sourceSize
  last : ∀ x ∈ a.bytes.getLast?, x = '\n'.toUInt8
  cuts : ∀ (i : Nat) (x : UInt8), a.bytes[i]? = some x → x < 0x80 → x ≠ 0x20 →
    a.CutsAt i ∧ a.CutsAt (i + 1)

theorem keepsIndices_of_newline {lang : SourceLang} {s : List Char}
    (h : ∀ c ∈ s.getLast?, c = '\n') : KeepsIndices lang s := by
  refine mask_keeps_indices lang s ?_
  rintro ⟨-, c, hc, hsize⟩
  obtain rfl := h c hc
  exact hsize rfl

/-- A source whose last line ends. -/
theorem lined_ofSource {lang : SourceLang} {s : List Char} (h : ∀ c ∈ s.getLast?, c = '\n') :
    (ofSource lang s).Lined := by
  have hkeeps : KeepsIndices lang s := keepsIndices_of_newline h
  refine ⟨hkeeps.size_eq, fun x hx => ?_, fun i x hx hlt hne => cutsAt_of_byte hx hlt hne⟩
  rcases List.eq_nil_or_concat s with rfl | ⟨t, c, rfl⟩
  · exact absurd hx nofun
  · rw [List.concat_eq_append] at h hx hkeeps
    obtain rfl := h c (by rw [List.getLast?_concat]; rfl)
    have hline : (Text.bytes (t ++ ['\n']))[(ofSource lang (t ++ ['\n'])).size - 1]? =
        some '\n'.toUInt8 := by
      rw [hkeeps.size_eq, sourceSize, source_ofSource, Text.byteLength_append, ← Text.length_bytes,
        Text.bytes_append]
      exact List.getElem?_concat_length
    rw [List.getLast?_eq_getElem?] at hx
    exact Option.some.inj (hx.symm.trans (hkeeps.lineFeed _ hline))

theorem byteLength_code (m : Masked) : Text.byteLength m.code = m.size := by
  rw [← Text.length_bytes, ← m.bytes_eq]
  rfl

variable {a b : Masked} {i j k : Nat}

@[simp] theorem source_append (a b : Masked) : (a.append b).source = a.source ++ b.source := rfl

@[simp] theorem code_append (a b : Masked) : (a.append b).code = a.code ++ b.code := rfl

@[simp] theorem bytes_append (a b : Masked) : (a.append b).bytes = a.bytes ++ b.bytes := rfl

@[simp] theorem size_append (a b : Masked) : (a.append b).size = a.size + b.size :=
  List.length_append

theorem sourceSize_append (ha : a.size = a.sourceSize) (b : Masked) :
    (a.append b).sourceSize = a.size + b.sourceSize := by
  rw [ha]
  exact Text.byteLength_append _ _

/-! ## Searches in the second text -/

theorem drop_append_add (a b : Masked) (i : Nat) :
    (a.append b).bytes.drop (a.size + i) = b.bytes.drop i :=
  List.drop_length_add_append i

theorem getElem?_append_add (a b : Masked) (i : Nat) :
    (a.append b).bytes[a.size + i]? = b.bytes[i]? := by
  rw [← List.head?_drop, drop_append_add, List.head?_drop]

theorem byteSlice_append_add (a b : Masked) (i j : Nat) :
    (a.append b).byteSlice (a.size + i) (a.size + j) = b.byteSlice i j := by
  unfold byteSlice
  rw [drop_append_add, Nat.add_sub_add_left]

theorem codeSlice_append_add (a b : Masked) (i j : Nat) :
    (a.append b).codeSlice (a.size + i) (a.size + j) = b.codeSlice i j := by
  unfold codeSlice
  rw [← byteLength_code, code_append, Text.cut_append_add]

theorem slice_append_add (ha : a.size = a.sourceSize) (b : Masked) (i j : Nat) :
    (a.append b).slice (a.size + i) (a.size + j) = b.slice i j := by
  unfold slice
  rw [ha]
  exact Text.cut_append_add a.source b.source i j

theorem spanText_append_add (ha : a.size = a.sourceSize) (b : Masked) (s : Span) :
    (a.append b).spanText (s.shift a.size) = b.spanText s :=
  slice_append_add ha b s.start s.stop

theorem isBlank_append_add (a b : Masked) (i j : Nat) :
    (a.append b).isBlank (a.size + i) (a.size + j) = b.isBlank i j := by
  unfold isBlank
  rw [codeSlice_append_add]

theorem skipBlank?_append_add (a b : Masked) (i : Nat) :
    (a.append b).skipBlank? (a.size + i) = (b.skipBlank? i).map (a.size + ·) := by
  have hdrop : Text.dropBytes? (a.size + i) (a.append b).code = Text.dropBytes? i b.code := by
    rw [← byteLength_code]
    exact Text.dropBytes?_append_add a.code b.code i
  unfold skipBlank?
  rw [hdrop]
  cases Text.dropBytes? i b.code with
  | none => rfl
  | some cs =>
    simp only
    split
    · rfl
    · rw [Option.map_some, Nat.add_assoc]

theorem identAt?_append_add (a b : Masked) (i : Nat) :
    (a.append b).identAt? (a.size + i) = (b.identAt? i).map (·.shift a.size) := by
  unfold identAt?
  rw [drop_append_add]
  cases b.bytes.drop i with
  | nil => rfl
  | cons x xs =>
    simp only
    split
    · rw [Option.map_some, Span.shift, Nat.add_assoc, Nat.add_assoc, Nat.add_assoc]
    · rfl

theorem nameAfter?_append_add (a b : Masked) (i : Nat) :
    (a.append b).nameAfter? (a.size + i) = (b.nameAfter? i).map (·.shift a.size) := by
  unfold nameAfter?
  rw [skipBlank?_append_add]
  cases b.skipBlank? i with
  | none => rfl
  | some j => exact identAt?_append_add a b j

theorem hasChar_append_add (a b : Masked) (i : Nat) (c : Char) :
    (a.append b).hasChar (a.size + i) c = b.hasChar i c := by
  unfold hasChar byteAt?
  rw [getElem?_append_add]

theorem closer?_append_add (a b : Masked) (i : Nat) :
    (a.append b).closer? (a.size + i) = (b.closer? i).map (a.size + ·) := by
  unfold closer?
  rw [drop_append_add]
  cases b.bytes.drop i with
  | nil => rfl
  | cons x xs =>
    simp only
    cases Delimiter.ofOpener? x with
    | none => rfl
    | some d =>
      simp only [Option.map_map]
      refine congrArg (fun f => Option.map f _) (funext fun n => ?_)
      show a.size + i + 1 + n = a.size + (i + 1 + n)
      omega

theorem parensAfter?_append_add (a b : Masked) (i : Nat) :
    (a.append b).parensAfter? (a.size + i) = (b.parensAfter? i).map (·.shift a.size) := by
  unfold parensAfter?
  rw [skipBlank?_append_add]
  cases b.skipBlank? i with
  | none => rfl
  | some j =>
    simp only [Option.map_some, hasChar_append_add, closer?_append_add]
    split
    · cases b.closer? j <;> rfl
    · rfl

theorem findTopLevel?_append_add (a b : Masked) (i j : Nat) (c : Char) :
    (a.append b).findTopLevel? (a.size + i) (a.size + j) c =
      (b.findTopLevel? i j c).map (a.size + ·) := by
  unfold findTopLevel?
  rw [byteSlice_append_add, Option.map_map]
  exact congrArg (fun f => Option.map f _) (funext fun n => Nat.add_assoc a.size i n)

/-! ## Searches in the first text -/

theorem drop_append_of_le (hi : i ≤ a.size) (b : Masked) :
    (a.append b).bytes.drop i = a.bytes.drop i ++ b.bytes :=
  List.drop_append_of_le_length hi

theorem getElem?_append_of_lt (hi : i < a.size) (b : Masked) :
    (a.append b).bytes[i]? = a.bytes[i]? :=
  List.getElem?_append_left hi

theorem byteSlice_append_of_le (hj : j ≤ a.size) (b : Masked) (i : Nat) :
    (a.append b).byteSlice i j = a.byteSlice i j := by
  unfold byteSlice
  by_cases hi : i ≤ j
  · rw [drop_append_of_le (Nat.le_trans hi hj), List.take_append_of_le_length]
    rw [List.length_drop]
    exact Nat.sub_le_sub_right hj i
  · rw [Nat.sub_eq_zero_of_le (by omega), List.take_zero, List.take_zero]

theorem codeSlice_append_of_le (hi : a.CutsAt i) (hj : j ≤ a.size) (b : Masked) :
    (a.append b).codeSlice i j = a.codeSlice i j := by
  obtain ⟨-, x, y, hcode, rfl⟩ := hi
  exact Text.cut_append_of_le hcode (by rw [byteLength_code]; exact hj) b.code

theorem slice_append_of_le (ha : a.size = a.sourceSize) (hi : a.CutsAt i) (hj : j ≤ a.size) (b : Masked) :
    (a.append b).slice i j = a.slice i j := by
  obtain ⟨⟨x, y, hsource, rfl⟩, -⟩ := hi
  exact Text.cut_append_of_le hsource (by rw [ha] at hj; exact hj) b.source

theorem isBlank_append_of_le (hi : a.CutsAt i) (hj : j ≤ a.size) (b : Masked) :
    (a.append b).isBlank i j = a.isBlank i j := by
  unfold isBlank
  rw [codeSlice_append_of_le hi hj]

theorem skipBlank?_append (h : a.skipBlank? i = some j) (b : Masked) :
    (a.append b).skipBlank? i = some j := by
  obtain ⟨x, blank, c, rest, hcode, rfl, hblank, hc, rfl⟩ := skipBlank?_eq_some h
  refine CodeFrom.skipBlank? (b := rest ++ b.code) ⟨x, ?_, rfl⟩ hblank hc
  rw [code_append, hcode, List.append_assoc, List.append_assoc]
  rfl

theorem hasChar_append (hi : i < a.size) (b : Masked) (c : Char) :
    (a.append b).hasChar i c = a.hasChar i c := by
  unfold hasChar byteAt?
  rw [getElem?_append_of_lt hi]

theorem closerOffset_append_of_some {d : Delimiter} {depth n : Nat} {bs : List UInt8}
    (h : closerOffset d depth bs = some n) (rest : List UInt8) :
    closerOffset d depth (bs ++ rest) = some n := by
  induction bs generalizing depth n with
  | nil => exact absurd h nofun
  | cons x bs ih =>
    have hlater {depth : Nat} (h : (closerOffset d depth bs).map (· + 1) = some n) :
        (closerOffset d depth (bs ++ rest)).map (· + 1) = some n := by
      obtain ⟨k, hk, rfl⟩ := Option.map_eq_some_iff.1 h
      rw [ih hk]
      rfl
    rw [closerOffset] at h
    rw [List.cons_append, closerOffset]
    split
    · rename_i hx
      rw [if_pos hx] at h
      exact hlater h
    · rename_i hx
      rw [if_neg hx] at h
      split
      · rename_i hx'
        rw [if_pos hx'] at h
        split
        · rename_i hdepth
          rwa [if_pos hdepth] at h
        · rename_i hdepth
          rw [if_neg hdepth] at h
          exact hlater h
      · rename_i hx'
        rw [if_neg hx'] at h
        exact hlater h

theorem closer?_append (h : a.closer? i = some j) (b : Masked) :
    (a.append b).closer? i = some j := by
  have hi : i < a.size := by have := lt_of_closer? h; omega
  unfold closer? at h ⊢
  rw [drop_append_of_le (Nat.le_of_lt hi)]
  cases hbs : a.bytes.drop i with
  | nil =>
    rw [hbs] at h
    exact absurd h nofun
  | cons x xs =>
    simp only [hbs] at h
    simp only [List.cons_append]
    cases hd : Delimiter.ofOpener? x with
    | none =>
      rw [hd] at h
      exact absurd h nofun
    | some d =>
      simp only [hd] at h
      obtain ⟨n, hn, rfl⟩ := Option.map_eq_some_iff.1 h
      simp only [closerOffset_append_of_some hn, Option.map_some]

theorem byteSlice_append_through (hi : i ≤ a.size) (b : Masked) (j : Nat) :
    (a.append b).byteSlice i (a.size + j) = a.byteSlice i a.size ++ b.byteSlice 0 j := by
  have hlen : (a.bytes.drop i).length = a.size - i := List.length_drop
  have hall {n : Nat} (hn : a.size - i ≤ n) : (a.bytes.drop i).take n = a.bytes.drop i :=
    List.take_of_length_le (by rw [hlen]; exact hn)
  unfold byteSlice
  rw [drop_append_of_le hi, List.take_append, hlen, hall (by omega), hall (Nat.le_refl _),
    show a.size + j - i - (a.size - i) = j - 0 by omega, List.drop_zero]

theorem length_byteSlice_size (a : Masked) (i : Nat) :
    (a.byteSlice i a.size).length = a.size - i := by
  unfold byteSlice size
  rw [List.length_take, List.length_drop, Nat.min_self]

/-- A search at top level goes through the first text before it comes to the second. -/
theorem findTopLevel?_append_through (hi : i ≤ a.size) (b : Masked) (j : Nat) (c : Char) :
    (a.append b).findTopLevel? i (a.size + j) c = (a.findTopLevel? i a.size c).or
      ((topLevelOffset c.toUInt8 (depthFrom 0 (a.byteSlice i a.size)) (b.byteSlice 0 j)).map
        (a.size + ·)) := by
  have hmap (r : Option Nat) :
      (r.map ((a.byteSlice i a.size).length + ·)).map (i + ·) = r.map (a.size + ·) := by
    rw [Option.map_map, length_byteSlice_size]
    refine congrArg (fun f => Option.map f r) (funext fun n => ?_)
    show i + (a.size - i + n) = a.size + n
    omega
  unfold findTopLevel?
  rw [byteSlice_append_through hi, topLevelOffset_append, Option.map_or, hmap]

/-- What is found at top level in the first text is found in both. -/
theorem findTopLevel?_append {c : Char} (hi : i ≤ a.size) (h : a.findTopLevel? i a.size c = some k)
    (b : Masked) (j : Nat) : (a.append b).findTopLevel? i (a.size + j) c = some k := by
  rw [findTopLevel?_append_through hi, h]
  rfl

/-- What is found in both only stands in the second text. -/
theorem le_of_findTopLevel?_append {c : Char} (hi : i ≤ a.size)
    (hnone : a.findTopLevel? i a.size c = none)
    (h : (a.append b).findTopLevel? i (a.size + j) c = some k) : a.size ≤ k := by
  rw [findTopLevel?_append_through hi, hnone, Option.none_or] at h
  obtain ⟨n, -, rfl⟩ := Option.map_eq_some_iff.1 h
  exact Nat.le_add_right _ _

/-! ## Words -/

/-- Whether a word stands before a line feed does not depend on what follows the line feed. -/
theorem wordHere_newline {word : List UInt8} (hword : '\n'.toUInt8 ∉ word) (before : Option UInt8)
    (bs rest : List UInt8) :
    wordHere word before (bs ++ '\n'.toUInt8 :: rest) = wordHere word before bs := by
  refine Bool.eq_iff_iff.2 ⟨wordHere_of_append_cons hword id, fun h => ?_⟩
  unfold wordHere at h ⊢
  simp only [Bool.and_eq_true] at h ⊢
  obtain ⟨⟨hbegins, hbefore⟩, hafter⟩ := h
  obtain ⟨later, rfl⟩ := List.isPrefixOf_iff_prefix.1 hbegins
  rw [List.drop_left] at hafter
  refine ⟨⟨List.isPrefixOf_iff_prefix.2 ⟨later ++ '\n'.toUInt8 :: rest, by rw [List.append_assoc]⟩,
    hbefore⟩, ?_⟩
  rw [List.append_assoc, List.drop_left]
  cases later with
  | nil => rfl
  | cons x later => exact hafter

theorem wordStartsFrom_newline {word : List UInt8} (hword : '\n'.toUInt8 ∉ word)
    (before : Option UInt8) (k : Nat) (bs rest : List UInt8) :
    wordStartsFrom word before k (bs ++ '\n'.toUInt8 :: rest) =
      wordStartsFrom word before k (bs ++ ['\n'.toUInt8]) ++
        wordStartsFrom word (some '\n'.toUInt8) (k + bs.length + 1) rest := by
  induction bs generalizing before k with
  | nil =>
    rw [List.nil_append, List.nil_append, wordStartsFrom, wordStartsFrom, wordStartsFrom,
      ← List.nil_append ('\n'.toUInt8 :: rest), ← List.nil_append ['\n'.toUInt8],
      wordHere_newline hword, wordHere_newline hword]
    split <;> rfl
  | cons x bs ih =>
    have hhere := (wordHere_newline hword before (x :: bs) rest).trans
      (wordHere_newline hword before (x :: bs) []).symm
    rw [List.cons_append, List.cons_append] at hhere
    rw [List.cons_append, List.cons_append, wordStartsFrom, wordStartsFrom, hhere, ih,
      List.length_cons, Nat.add_right_comm k 1, Nat.add_assoc k bs.length 1]
    split
    · rfl
    · rfl

/-- The byte before a run of bytes counts only by whether words end at it. -/
theorem wordStartsFrom_congr {word : List UInt8} {before before' : Option UInt8}
    (h : breaksWord before = breaksWord before') (k : Nat) (bs : List UInt8) :
    wordStartsFrom word before k bs = wordStartsFrom word before' k bs := by
  cases bs with
  | nil => rfl
  | cons x bs => rw [wordStartsFrom, wordStartsFrom, wordHere, wordHere, h]

theorem wordStartsFrom_add (word : List UInt8) (before : Option UInt8) (n k : Nat)
    (bs : List UInt8) :
    wordStartsFrom word before (n + k) bs = (wordStartsFrom word before k bs).map (n + ·) := by
  induction bs generalizing before k with
  | nil => rfl
  | cons x bs ih =>
    rw [wordStartsFrom, wordStartsFrom, Nat.add_assoc, ih]
    split
    · rfl
    · rfl

namespace Lined

theorem eq_nil_or (ha : a.Lined) : a.bytes = [] ∨ ∃ bs, a.bytes = bs ++ ['\n'.toUInt8] := by
  rcases List.eq_nil_or_concat a.bytes with hnil | ⟨bs, x, hbytes⟩
  · exact .inl hnil
  · rw [List.concat_eq_append] at hbytes
    have := ha.last x (by rw [hbytes, List.getLast?_concat]; rfl)
    exact .inr ⟨bs, by rw [hbytes, this]⟩

theorem code_last (ha : a.Lined) : ∀ c ∈ a.code.getLast?, c = '\n' := by
  intro c hc
  obtain ⟨p, hp⟩ := List.getLast?_eq_some_iff.1 hc
  have hbytes : a.bytes = Text.bytes p ++ String.utf8EncodeChar c := by
    rw [a.bytes_eq, hp, Text.bytes_append, Text.bytes_cons, Text.bytes_nil, List.append_nil]
  cases hlast : (String.utf8EncodeChar c).getLast? with
  | none => exact absurd (List.getLast?_eq_none_iff.1 hlast) String.utf8EncodeChar_ne_nil
  | some x =>
    have hx : x = '\n'.toUInt8 := ha.last x (by
      rw [hbytes, List.getLast?_append, hlast]
      rfl)
    have hnarrow : c.utf8Size = 1 := by
      refine Decidable.byContradiction fun hwide => ?_
      have := Text.le_of_mem_wide hwide (List.mem_of_getLast? hlast)
      rw [hx] at this
      exact absurd this (by decide)
    rw [Text.utf8EncodeChar_of_narrow hnarrow] at hlast
    exact Text.eq_of_toUInt8_eq hnarrow (by decide) ((Option.some.inj hlast).trans hx)

/-- The places of a word in two texts are those in each of them. -/
theorem wordStarts_append (ha : a.Lined) (b : Masked) {word : String}
    (hword : '\n'.toUInt8 ∉ Text.bytes word.toList) :
    (a.append b).wordStarts word = a.wordStarts word ++ (b.wordStarts word).map (a.size + ·) := by
  unfold wordStarts
  rw [bytes_append, ← wordStartsFrom_add, Nat.add_zero]
  rcases ha.eq_nil_or with hnil | ⟨bs, hbytes⟩
  · rw [show a.size = 0 from congrArg List.length hnil, hnil]
    rfl
  · have hsize : a.size = 0 + bs.length + 1 := by
      unfold size
      rw [hbytes, List.length_append, Nat.zero_add]
      rfl
    rw [hsize, hbytes, List.append_assoc, List.singleton_append, wordStartsFrom_newline hword,
      wordStartsFrom_congr (show breaksWord (some '\n'.toUInt8) = breaksWord none by decide)]

/-- No name reaches across the seam. -/
theorem identAt?_append (ha : a.Lined) (b : Masked) (hi : i < a.size) :
    (a.append b).identAt? i = a.identAt? i := by
  rcases ha.eq_nil_or with hnil | ⟨bs, hbytes⟩
  · exact absurd hi (by unfold size; rw [hnil]; exact Nat.not_lt_zero i)
  unfold identAt?
  rw [drop_append_of_le (Nat.le_of_lt hi)]
  cases hdrop : a.bytes.drop i with
  | nil => exact absurd (List.drop_eq_nil_iff.1 hdrop) (Nat.not_le_of_lt hi)
  | cons x xs =>
    have hlast : (x :: xs).getLast? = some '\n'.toUInt8 := by
      rw [← hdrop, List.getLast?_drop, if_neg (show ¬a.bytes.length ≤ i from Nat.not_le_of_lt hi),
        hbytes, List.getLast?_concat]
    simp only [List.cons_append]
    cases xs with
    | nil =>
      obtain rfl := Option.some.inj hlast
      rfl
    | cons y ys =>
      have htake : ((y :: ys) ++ b.bytes).takeWhile isWordByte = (y :: ys).takeWhile isWordByte := by
        rw [List.takeWhile_append, if_neg]
        intro hlen
        have hall := List.all_takeWhile (p := isWordByte) (l := y :: ys)
        rw [(List.takeWhile_prefix isWordByte).eq_of_length hlen] at hall
        rw [List.getLast?_cons_cons] at hlast
        exact absurd (List.all_eq_true.1 hall _ (List.mem_of_getLast? hlast)) (by decide)
      rw [htake]

theorem nameAfter?_append (ha : a.Lined) (b : Masked) (h : a.skipBlank? i = some j) :
    (a.append b).nameAfter? i = a.nameAfter? i := by
  have hj : j < a.size := by
    obtain ⟨x, blank, c, rest, hcode, rfl, -, -, rfl⟩ := skipBlank?_eq_some h
    have := Char.utf8Size_pos c
    rw [← byteLength_code, hcode, Text.byteLength_append, Text.byteLength_append,
      Text.byteLength_cons]
    omega
  unfold nameAfter?
  rw [skipBlank?_append h, h]
  exact ha.identAt?_append b hj

theorem spanText_append (ha : a.Lined) (b : Masked) {s : Span} (h : a.nameAfter? i = some s) :
    (a.append b).spanText s = a.spanText s := by
  obtain ⟨n, -, hident⟩ := Option.bind_eq_some_iff.1 h
  obtain ⟨hstart, -, ⟨x, hx, hxword⟩, y, hy, -⟩ := identAt?_eq_some hident
  obtain ⟨hascii, hspace⟩ := lt_of_isWordByte (isWordByte_of_isWordStart hxword)
  have hcut : a.CutsAt s.start := hstart ▸ (ha.cuts n x hx hascii hspace).1
  have hstop : s.stop ≤ a.size := by
    have : s.stop - 1 < a.size := (List.getElem?_eq_some_iff.1 hy).1
    omega
  exact slice_append_of_le ha.size_eq hcut hstop b

/-! ## Lines -/

theorem isLineStart_size (ha : a.Lined) : a.IsLineStart a.size := by
  rcases ha.eq_nil_or with hnil | ⟨bs, hbytes⟩
  · exact .inl (congrArg List.length hnil)
  · refine .inr ⟨bs.length, ?_, ?_⟩
    · unfold size
      rw [hbytes, List.length_append]
      rfl
    · rw [hbytes, List.getElem?_append_right (Nat.le_refl _), Nat.sub_self]
      rfl

theorem cutsAt_of_isLineStart (ha : a.Lined) (h : a.IsLineStart i) : a.CutsAt i := by
  rcases h with rfl | ⟨k, rfl, hk⟩
  · exact cutsAt_zero a
  · exact (ha.cuts k _ hk (by decide) (by decide)).2

theorem cutsAt_lineStart (ha : a.Lined) (i : Nat) : a.CutsAt (a.lineStart i) :=
  ha.cutsAt_of_isLineStart (isLineStart_lineStart a i)

end Lined

theorem lineStart_append_of_le (hi : i ≤ a.size) (b : Masked) :
    (a.append b).lineStart i = a.lineStart i := by
  unfold lineStart
  rw [bytes_append, List.take_append_of_le_length hi]

theorem lineStartFrom_add (n start k : Nat) (bs : List UInt8) :
    lineStartFrom (n + start) (n + k) bs = n + lineStartFrom start k bs := by
  induction bs generalizing start k with
  | nil => rfl
  | cons x bs ih =>
    rw [lineStartFrom, lineStartFrom, Nat.add_assoc, ← ih]
    split
    · rfl
    · rfl

namespace Lined

theorem lineStart_append_add (ha : a.Lined) (b : Masked) (i : Nat) :
    (a.append b).lineStart (a.size + i) = a.size + b.lineStart i := by
  have hfirst : lineStartFrom 0 0 a.bytes = a.size := by
    have := ha.isLineStart_size.lineStart_eq
    unfold lineStart at this
    rwa [size, List.take_length] at this
  unfold lineStart
  rw [bytes_append, size, List.take_length_add_append, lineStartFrom_append, hfirst, size,
    Nat.add_comm 0]
  exact lineStartFrom_add a.bytes.length 0 0 (b.bytes.take i)

theorem beginsLine_append_add (ha : a.Lined) (b : Masked) (i : Nat) :
    (a.append b).beginsLine (a.size + i) = b.beginsLine i := by
  unfold beginsLine
  rw [ha.lineStart_append_add, isBlank_append_add]

theorem beginsLine_append (ha : a.Lined) (b : Masked) (hi : i ≤ a.size) :
    (a.append b).beginsLine i = a.beginsLine i := by
  unfold beginsLine
  rw [lineStart_append_of_le hi, isBlank_append_of_le (ha.cutsAt_lineStart i) hi]

/-! ## Decorations -/

theorem decorationFrom_append (ha : a.Lined) (b : Masked) (hi : i ≤ a.size) :
    (a.append b).decorationFrom i = a.decorationFrom i := by
  induction i using Nat.strongRecOn with
  | ind i ih =>
    unfold decorationFrom
    split
    · rfl
    · rename_i hne
      have hle := a.lineStart_le (i - 1)
      simp only [lineStart_append_of_le (show i - 1 ≤ a.size by omega),
        slice_append_of_le ha.size_eq (ha.cutsAt_lineStart (i - 1)) hi]
      split
      · exact ih _ (by omega) (by omega)
      · rfl

/-- The decorations of the second text stay its own when the first one does not end in some. -/
theorem decorationFrom_append_add (ha : a.Lined) (hseam : a.decorationFrom a.size = a.size)
    (b : Masked) (i : Nat) :
    (a.append b).decorationFrom (a.size + i) = a.size + b.decorationFrom i := by
  induction i using Nat.strongRecOn with
  | ind i ih =>
    cases i with
    | zero =>
      have hzero : b.decorationFrom 0 = 0 := by
        unfold decorationFrom
        rw [dif_pos rfl]
      rw [hzero, Nat.add_zero, ha.decorationFrom_append b (Nat.le_refl _), hseam]
    | succ k =>
      have hle := b.lineStart_le k
      have hline : (a.append b).lineStart (a.size + (k + 1) - 1) = a.size + b.lineStart k :=
        ha.lineStart_append_add b k
      unfold decorationFrom
      rw [dif_neg (by omega), dif_neg (by omega)]
      simp only [hline, Nat.add_sub_cancel, slice_append_add ha.size_eq]
      split
      · exact ih _ (by omega)
      · rfl

/-- Above the end of a text whose last line is blank there are no decorations. -/
theorem decorationFrom_size (ha : a.Lined) {before blank : List Char}
    (hsource : a.source = before ++ (blank ++ ['\n']))
    (hbefore : a.IsLineStart (Text.byteLength before)) (hblank : Text.allBlank blank = true) :
    a.decorationFrom a.size = a.size := by
  have hsize : Text.byteLength a.source = a.size := ha.size_eq.symm
  have hlen : a.size = Text.byteLength before + (Text.byteLength blank + 1) := by
    rw [← hsize, hsource, Text.byteLength_append, Text.byteLength_append]
    rfl
  have hline : Text.byteLength before ≤ a.lineStart (a.size - 1) := by
    rcases hbefore with hzero | ⟨k, hk, hnewline⟩
    · omega
    · have := lt_lineStart hnewline (show k < a.size - 1 by omega)
      omega
  obtain ⟨⟨x, y, hxy, hx⟩, -⟩ := ha.cutsAt_lineStart (a.size - 1)
  rw [← hx] at hline
  obtain ⟨mid, -, hmid, -⟩ := Text.exists_split_of_le hsource hxy hline
  have hy : Text.allBlank y = true := by
    have hall : Text.allBlank (mid ++ y) = true := by
      rw [← hmid]
      exact Text.allBlank_append.2 ⟨hblank, by decide⟩
    exact (Text.allBlank_append.1 hall).2
  have hslice : a.slice (a.lineStart (a.size - 1)) a.size = y := by
    have := Text.cut_append x y []
    rw [List.append_nil, ← hxy, ← Text.byteLength_append, ← hxy, hsize, hx] at this
    exact this
  unfold decorationFrom
  rw [dif_neg (by omega)]
  simp only [hslice, Text.trim_of_allBlank hy]
  rfl

theorem decorationFrom_size_ofSource {lang : SourceLang} {before blank : List Char}
    (hbefore : ∀ c ∈ before.getLast?, c = '\n') (hblank : Text.allBlank blank = true) :
    (ofSource lang (before ++ (blank ++ ['\n']))).decorationFrom
        (ofSource lang (before ++ (blank ++ ['\n']))).size =
      (ofSource lang (before ++ (blank ++ ['\n']))).size := by
  have hlast : ∀ c ∈ (before ++ (blank ++ ['\n'])).getLast?, c = '\n' := fun c hc => by
    rw [← List.append_assoc, List.getLast?_concat] at hc
    exact (Option.some.inj hc).symm
  refine (lined_ofSource hlast).decorationFrom_size rfl ?_ hblank
  rcases List.eq_nil_or_concat before with rfl | ⟨p, c, rfl⟩
  · exact isLineStart_zero _
  · rw [List.concat_eq_append] at hbefore hlast ⊢
    obtain rfl := hbefore c (by rw [List.getLast?_concat]; rfl)
    refine .inr ⟨Text.byteLength p, Text.byteLength_append _ _, ?_⟩
    refine (keepsIndices_of_newline hlast).lineFeed _ ?_
    rw [← List.head?_drop, List.append_assoc, Text.drop_bytes_append]
    rfl

theorem decorationStart_append (ha : a.Lined) (b : Masked) (hi : i ≤ a.size) :
    (a.append b).decorationStart i = a.decorationStart i := by
  have := a.lineStart_le i
  unfold decorationStart
  rw [lineStart_append_of_le hi, ha.decorationFrom_append b (by omega)]

theorem decorationStart_append_add (ha : a.Lined) (hseam : a.decorationFrom a.size = a.size)
    (b : Masked) (i : Nat) :
    (a.append b).decorationStart (a.size + i) = a.size + b.decorationStart i := by
  unfold decorationStart
  rw [ha.lineStart_append_add, ha.decorationFrom_append_add hseam]

end Lined

end Masked

end RpcBindings
