import RpcBindings.Text.Offset

/-!
What searches in bytes find: the first occurrence of a pattern, the last byte of a kind.
-/

namespace RpcBindings.Text

/-- The first occurrence of a pattern has none before it. -/
theorem findBytes?_le {pattern bs : List UInt8} {k : Nat} (hk : k ≤ bs.length)
    (h : pattern.isPrefixOf (bs.drop k) = true) : ∃ n, findBytes? pattern bs = some n ∧ n ≤ k := by
  induction bs generalizing k with
  | nil =>
    cases pattern with
    | nil => exact ⟨0, rfl, Nat.zero_le k⟩
    | cons p pattern => simp at h
  | cons b bs ih =>
    rw [findBytes?]
    split
    · exact ⟨0, rfl, Nat.zero_le k⟩
    · rename_i hb
      cases k with
      | zero => exact absurd h hb
      | succ k =>
        obtain ⟨n, hn, hle⟩ := ih (by simpa using hk) h
        exact ⟨n + 1, by rw [hn]; rfl, by omega⟩

/-- Where a pattern stands each of its bytes stands. -/
theorem getElem?_of_isPrefixOf {pattern bs : List UInt8} {i k : Nat} {b : UInt8}
    (h : pattern.isPrefixOf (bs.drop i) = true) (hk : pattern[k]? = some b) :
    bs[i + k]? = some b := by
  obtain ⟨rest, hrest⟩ := List.isPrefixOf_iff_prefix.1 h
  obtain ⟨hlt, -⟩ := List.getElem?_eq_some_iff.1 hk
  rw [← List.getElem?_drop, ← hrest, List.getElem?_append_left hlt, hk]

theorem lengthThroughLast_spec (p : UInt8 → Bool) (bs : List UInt8) :
    (∀ b ∈ bs.drop (lengthThroughLast p bs), p b = false) ∧
      (lengthThroughLast p bs = 0 ∨
        ∃ b, bs[lengthThroughLast p bs - 1]? = some b ∧ p b = true) := by
  unfold lengthThroughLast
  generalize hr : bs.reverse = r
  obtain rfl : bs = r.reverse := by rw [← hr, List.reverse_reverse]
  have hsplit := List.takeWhile_append_dropWhile (p := fun b => !p b) (l := r)
  have hbs : r.reverse = (r.dropWhile fun b => !p b).reverse ++
      (r.takeWhile fun b => !p b).reverse := by
    rw [← List.reverse_append, hsplit]
  constructor
  · intro b hb
    rw [hbs, ← List.length_reverse, List.drop_left, List.mem_reverse] at hb
    have := List.all_eq_true.1 (List.all_takeWhile (p := fun b => !p b) (l := r)) b hb
    simpa using this
  · cases hd : r.dropWhile fun b => !p b with
    | nil => exact .inl rfl
    | cons b rest =>
      refine .inr ⟨b, ?_, ?_⟩
      · rw [hbs, hd, List.reverse_cons, List.append_assoc, List.length_cons, Nat.add_sub_cancel,
          ← List.length_reverse, List.getElem?_append_right (Nat.le_refl _), Nat.sub_self]
        rfl
      · have := List.head?_dropWhile_not (fun b => !p b) r
        simpa [hd] using this

/-- A pattern without a byte does not reach over it. -/
theorem isPrefixOf_of_not_mem {pattern a rest : List UInt8} {b : UInt8}
    (h : pattern.isPrefixOf (a ++ b :: rest) = true) (hb : b ∉ pattern) :
    pattern.isPrefixOf a = true := by
  rw [List.isPrefixOf_iff_prefix] at h ⊢
  induction pattern generalizing a with
  | nil => exact List.nil_prefix
  | cons p pattern ih =>
    rw [List.mem_cons, not_or] at hb
    cases a with
    | nil => exact absurd (List.cons_prefix_cons.1 h).1.symm hb.1
    | cons c a =>
      obtain ⟨rfl, hrest⟩ := List.cons_prefix_cons.1 h
      exact List.cons_prefix_cons.2 ⟨rfl, ih hrest hb.2⟩

theorem lengthThroughLast_append {p : UInt8 → Bool} {b : UInt8} (hb : p b = true)
    (a : List UInt8) {rest : List UInt8} (hrest : ∀ x ∈ rest, p x = false) :
    lengthThroughLast p (a ++ b :: rest) = a.length + 1 := by
  have hpos : ∀ x ∈ rest.reverse, (!p x) = true := fun x hx => by
    rw [hrest x (List.mem_reverse.1 hx)]
    rfl
  unfold lengthThroughLast
  rw [List.reverse_append, List.reverse_cons, List.append_assoc,
    List.dropWhile_append_of_pos hpos, List.singleton_append,
    List.dropWhile_cons_of_neg (by simp [hb])]
  simp

end RpcBindings.Text
