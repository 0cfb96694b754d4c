import RpcBindings.Proofs.Masked.Reading

/-!
Where lines begin in a masked text, and the comments and attributes directly above them.
-/

namespace RpcBindings.Masked

variable {m : Masked} {i : Nat}

theorem lineStartFrom_append (start k : Nat) (a b : List UInt8) :
    lineStartFrom start k (a ++ b) = lineStartFrom (lineStartFrom start k a) (k + a.length) b := by
  induction a generalizing start k with
  | nil => rfl
  | cons x a ih =>
    rw [List.cons_append, lineStartFrom, lineStartFrom, ih, List.length_cons, Nat.add_right_comm,
      Nat.add_assoc]

theorem lineStartFrom_of_not_mem {bs : List UInt8} (h : '\n'.toUInt8 ∉ bs) (start k : Nat) :
    lineStartFrom start k bs = start := by
  induction bs generalizing k with
  | nil => rfl
  | cons b bs ih =>
    rw [List.mem_cons, not_or] at h
    rw [lineStartFrom, if_neg (Ne.symm h.1), ih h.2]

/-- Within a line its start stays the same. -/
theorem CodeFrom.lineStart_add {a b : List Char} (h : m.CodeFrom i (a ++ b))
    (ha : '\n'.toUInt8 ∉ Text.bytes a) :
    m.lineStart (i + Text.byteLength a) = m.lineStart i := by
  have htake : m.bytes.take (i + Text.byteLength a) = m.bytes.take i ++ Text.bytes a := by
    rw [List.take_add, h.drop_bytes, Text.take_bytes_append]
  unfold lineStart
  rw [htake, lineStartFrom_append, lineStartFrom_of_not_mem ha]

theorem bne_newline_of_mem_bytes {x : List Char} (hx : '\n' ∉ x) :
    ∀ b ∈ Text.bytes x, (b != '\n'.toUInt8) = true := by
  intro b hb
  refine bne_iff_ne.2 fun heq => ?_
  obtain ⟨c, hc, hnarrow, hbyte⟩ := Text.exists_of_mem_bytes (heq ▸ hb) (by decide)
  exact hx (Text.eq_of_toUInt8_eq hnarrow (by decide) hbyte ▸ hc)

/-- A line stops at the first line feed. -/
theorem CodeFrom.lineStop {x rest : List Char} (h : m.CodeFrom i (x ++ '\n' :: rest))
    (hx : '\n' ∉ x) : m.lineStop i = i + Text.byteLength x := by
  unfold Masked.lineStop
  rw [h.drop_bytes, Text.bytes_append, List.takeWhile_append_of_pos (bne_newline_of_mem_bytes hx),
    Text.bytes_cons_of_narrow (by decide), List.takeWhile_cons_of_neg (by decide), List.append_nil,
    Text.length_bytes]

/-- A line begins at the offset. -/
def IsLineStart (m : Masked) (i : Nat) : Prop :=
  i = 0 ∨ ∃ k, i = k + 1 ∧ m.bytes[k]? = some '\n'.toUInt8

theorem isLineStart_zero (m : Masked) : m.IsLineStart 0 := .inl rfl

/-- Behind a line feed a line begins. -/
theorem CodeFrom.isLineStart {b : List Char} (h : m.CodeFrom i ('\n' :: b)) :
    m.IsLineStart (i + 1) := by
  have := h.getElem? 0
  rw [Text.bytes_cons_of_narrow (by decide)] at this
  exact .inr ⟨i, rfl, this⟩

namespace IsLineStart

theorem lineStart_eq (h : m.IsLineStart i) : m.lineStart i = i := by
  rcases h with rfl | ⟨k, rfl, hk⟩
  · rfl
  · have hlen : k ≤ m.bytes.length := Nat.le_of_lt (List.getElem?_eq_some_iff.1 hk).1
    have htake : m.bytes.take (k + 1) = m.bytes.take k ++ ['\n'.toUInt8] := by
      rw [List.take_add_one, hk]
      rfl
    unfold lineStart
    rw [htake, lineStartFrom_append, List.length_take_of_le hlen, Nat.zero_add]
    rfl

/-- Where a line begins only blanks stand before it on its line. -/
theorem beginsLine (h : m.IsLineStart i) : m.beginsLine i = true := by
  unfold Masked.beginsLine Masked.isBlank Masked.codeSlice Text.cut
  rw [h.lineStart_eq, Nat.sub_self, Text.takeBytes]
  rfl

theorem breaksWord (h : m.IsLineStart i) : breaksWord (m.byteBefore i) = true := by
  rcases h with rfl | ⟨k, rfl, hk⟩
  · rfl
  · show Masked.breaksWord m.bytes[k]? = true
    rw [hk]
    rfl

/-- Where a line begins the source can be cut. -/
theorem cutsAt {lang : SourceLang} {source : List Char} (h : (ofSource lang source).IsLineStart i) :
    (ofSource lang source).CutsAt i := by
  rcases h with rfl | ⟨k, rfl, hk⟩
  · exact cutsAt_zero _
  · exact (cutsAt_of_byte hk (by decide) (by decide)).2

end IsLineStart

/-- A line begins where the bytes do, or behind the last line feed of them. -/
theorem lineStartFrom_spec {start k : Nat} {bs : List UInt8} (h : start ≤ k) :
    (lineStartFrom start k bs = start ∨
        ∃ n, bs[n]? = some '\n'.toUInt8 ∧ lineStartFrom start k bs = k + n + 1) ∧
      start ≤ lineStartFrom start k bs ∧
      ∀ n, bs[n]? = some '\n'.toUInt8 → k + n + 1 ≤ lineStartFrom start k bs := by
  induction bs generalizing start k with
  | nil => exact ⟨.inl rfl, Nat.le_refl _, fun n hn => absurd hn (by simp)⟩
  | cons b bs ih =>
    rw [lineStartFrom]
    by_cases hb : b = '\n'.toUInt8
    · rw [if_pos hb]
      obtain ⟨hbegins, hle, hlast⟩ := ih (Nat.le_refl (k + 1))
      refine ⟨.inr ?_, by omega, fun n hn => ?_⟩
      · rcases hbegins with heq | ⟨n, hn, heq⟩
        · exact ⟨0, congrArg some hb, heq⟩
        · exact ⟨n + 1, hn, by omega⟩
      · cases n with
        | zero => exact hle
        | succ n =>
          have := hlast n hn
          omega
    · rw [if_neg hb]
      obtain ⟨hbegins, hle, hlast⟩ := ih (show start ≤ k + 1 by omega)
      refine ⟨?_, hle, fun n hn => ?_⟩
      · rcases hbegins with heq | ⟨n, hn, heq⟩
        · exact .inl heq
        · exact .inr ⟨n + 1, hn, by omega⟩
      · cases n with
        | zero => exact absurd (Option.some.inj hn) hb
        | succ n =>
          have := hlast n hn
          omega

/-- Where a line is said to begin, one begins. -/
theorem isLineStart_lineStart (m : Masked) (i : Nat) : m.IsLineStart (m.lineStart i) := by
  obtain ⟨heq | ⟨n, hn, heq⟩, -⟩ := @lineStartFrom_spec 0 0 (m.bytes.take i) (Nat.le_refl 0)
  · exact .inl heq
  · refine .inr ⟨n, by unfold lineStart; omega, ?_⟩
    rw [List.getElem?_take] at hn
    split at hn
    · exact hn
    · exact absurd hn nofun

/-- The line of an offset begins behind every line feed before the offset. -/
theorem lt_lineStart {k : Nat} (h : m.bytes[k]? = some '\n'.toUInt8) (hk : k < i) :
    k < m.lineStart i := by
  obtain ⟨-, -, hlast⟩ := @lineStartFrom_spec 0 0 (m.bytes.take i) (Nat.le_refl 0)
  have := hlast k (by rw [List.getElem?_take, if_pos hk, h])
  unfold lineStart
  omega

/-- The search upwards goes one line further over a comment or an attribute. -/
theorem decorationFrom_succ (m : Masked) (i : Nat) : m.decorationFrom (i + 1) =
    if isDecoration (Text.trim (m.slice (m.lineStart i) (i + 1))) then
      m.decorationFrom (m.lineStart i)
    else i + 1 := by
  rw [decorationFrom, dif_neg (Nat.succ_ne_zero i)]
  rfl

theorem decorationFrom_le (m : Masked) (start : Nat) : m.decorationFrom start ≤ start := by
  induction start using Nat.strongRecOn with
  | ind start ih =>
    unfold decorationFrom
    split
    · exact Nat.le_refl start
    · have hle := m.lineStart_le (start - 1)
      simp only
      split
      · have := ih (m.lineStart (start - 1)) (by omega)
        omega
      · exact Nat.le_refl start

/-- The comments and attributes above a line begin with a line. -/
theorem isLineStart_decorationFrom (h : m.IsLineStart i) :
    m.IsLineStart (m.decorationFrom i) := by
  induction i using Nat.strongRecOn with
  | ind i ih =>
    unfold decorationFrom
    split
    · exact h
    · have := m.lineStart_le (i - 1)
      simp only
      split
      · exact ih _ (by omega) (isLineStart_lineStart m (i - 1))
      · exact h

end RpcBindings.Masked
