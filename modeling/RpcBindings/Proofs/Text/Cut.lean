import RpcBindings.Proofs.Text.Bytes

/-!
Cuts that are refused.

A part of a text is cut out exactly when characters begin or end at both of its offsets
(`cut?_eq_some_iff`). A cut that is not refused gives what a cut that never is gives (`cut_of_cut?`).
-/

namespace RpcBindings.Text

theorem takeBytes?_eq_some_iff {n : Nat} {cs t : List Char} :
    takeBytes? n cs = some t ↔ ∃ b, cs = t ++ b ∧ byteLength t = n := by
  constructor
  · intro h
    induction cs generalizing n t with
    | nil =>
      cases n with
      | zero =>
        obtain rfl := Option.some.inj h
        exact ⟨[], rfl, rfl⟩
      | succ n => exact absurd h (by simp [takeBytes?])
    | cons c cs ih =>
      cases n with
      | zero =>
        obtain rfl := Option.some.inj h
        exact ⟨c :: cs, rfl, rfl⟩
      | succ n =>
        rw [takeBytes?] at h
        split at h
        · rename_i hsize
          obtain ⟨t', ht', rfl⟩ := Option.map_eq_some_iff.1 h
          obtain ⟨b, rfl, hlen⟩ := ih ht'
          exact ⟨b, rfl, by rw [byteLength_cons, hlen]; omega⟩
        · exact absurd h (by simp)
  · rintro ⟨b, rfl, rfl⟩
    exact takeBytes?_append t b

/-- A part is cut out when it stands in the text between the two offsets. -/
theorem cut?_eq_some_iff {i j : Nat} {cs t : List Char} :
    cut? i j cs = some t ↔
      ∃ a b, cs = a ++ (t ++ b) ∧ byteLength a = i ∧ i + byteLength t = j := by
  unfold cut?
  constructor
  · intro h
    split at h
    · rename_i hij
      obtain ⟨rest, hrest, htake⟩ := Option.bind_eq_some_iff.1 h
      obtain ⟨a, rfl, ha⟩ := dropBytes?_eq_some_iff.1 hrest
      obtain ⟨b, rfl, hlen⟩ := takeBytes?_eq_some_iff.1 htake
      exact ⟨a, b, rfl, ha, by omega⟩
    · exact absurd h nofun
  · rintro ⟨a, b, rfl, rfl, rfl⟩
    rw [if_pos (Nat.le_add_right _ _), dropBytes?_append, Option.bind_some,
      Nat.add_sub_cancel_left, takeBytes?_append]

theorem cut_of_cut? {i j : Nat} {cs t : List Char} (h : cut? i j cs = some t) : cut i j cs = t := by
  obtain ⟨a, b, rfl, rfl, rfl⟩ := cut?_eq_some_iff.1 h
  rw [← List.append_assoc]
  exact cut_append a t b

/-- A part between two boundaries is cut out. -/
theorem cut?_of_isBoundary {i j : Nat} {cs : List Char} (hi : IsBoundary cs i) (hj : IsBoundary cs j)
    (hij : i ≤ j) : cut? i j cs = some (cut i j cs) := by
  obtain ⟨a, rest, ha, rfl⟩ := hi
  obtain ⟨b, after, hb, rfl⟩ := hj
  obtain ⟨mid, rfl, rfl, hcut⟩ := exists_split_of_le ha hb hij
  rw [hcut]
  exact cut?_eq_some_iff.2 ⟨a, after, ha, rfl, (byteLength_append a mid).symm⟩

theorem isSuffix_dropBytes (n : Nat) (cs : List Char) : dropBytes n cs <:+ cs := by
  induction n, cs using dropBytes.induct with
  | case1 cs => simp only [dropBytes, List.suffix_refl]
  | case2 n => simp only [dropBytes, List.suffix_refl]
  | case3 n c cs ih => exact ih.trans (List.suffix_cons c cs)

theorem isPrefix_takeBytes (n : Nat) (cs : List Char) : takeBytes n cs <+: cs := by
  induction n, cs using takeBytes.induct with
  | case1 cs =>
    rw [takeBytes]
    exact List.nil_prefix
  | case2 n => exact List.nil_prefix
  | case3 n c cs ih => exact (List.prefix_cons_inj c).2 ih

theorem isInfix_cut (i j : Nat) (cs : List Char) : cut i j cs <:+: cs :=
  (isPrefix_takeBytes _ _).isInfix.trans (isSuffix_dropBytes i cs).isInfix

/-- Nothing behind the end is cut out. -/
theorem le_byteLength_of_cut? {i j : Nat} {cs t : List Char} (h : cut? i j cs = some t) :
    j ≤ byteLength cs := by
  obtain ⟨a, b, rfl, rfl, rfl⟩ := cut?_eq_some_iff.1 h
  rw [byteLength_append, byteLength_append]
  omega

theorem exists_of_takeBytes_eq {n : Nat} {cs a b : List Char} {c : Char}
    (h : takeBytes n cs = a ++ c :: b) : (∃ rest, cs = a ++ c :: rest) ∧ byteLength a < n := by
  induction n, cs using takeBytes.induct generalizing a with
  | case1 cs =>
    rw [takeBytes] at h
    exact absurd h.symm (List.append_ne_nil_of_right_ne_nil a (List.cons_ne_nil c b))
  | case2 n => exact absurd h.symm (List.append_ne_nil_of_right_ne_nil a (List.cons_ne_nil c b))
  | case3 n d cs ih =>
    rw [takeBytes] at h
    cases a with
    | nil =>
      obtain ⟨rfl, -⟩ := List.cons.inj h
      exact ⟨⟨cs, rfl⟩, Nat.succ_pos n⟩
    | cons e a =>
      obtain ⟨rfl, htail⟩ := List.cons.inj h
      obtain ⟨⟨rest, rfl⟩, hlen⟩ := ih htail
      refine ⟨⟨rest, rfl⟩, ?_⟩
      rw [byteLength_cons]
      omega

/-- A character that is cut out begins before the second offset. -/
theorem exists_of_mem_cut {j : Nat} {x y : List Char} {c : Char}
    (h : c ∈ cut (byteLength x) j (x ++ y)) : ∃ a b, y = a ++ c :: b ∧ byteLength (x ++ a) < j := by
  unfold cut at h
  rw [dropBytes_append] at h
  obtain ⟨a, b, hcut⟩ := List.append_of_mem h
  obtain ⟨⟨rest, rfl⟩, hlen⟩ := exists_of_takeBytes_eq hcut
  refine ⟨a, rest, rfl, ?_⟩
  rw [byteLength_append]
  omega

end RpcBindings.Text
