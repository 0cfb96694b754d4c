import RpcBindings.Proofs.Masked.Nest

/-!
Delimiters at top level.

Where the bytes between two offsets are well nested, the second one stands at top level behind the
first. The search at top level comes to a delimiter there or to one before it that stands at top level
too (`exists_findTopLevel?`), and what opens before it closes before it
(`exists_closer?_of_wellNested`).
-/

namespace RpcBindings.Masked

variable {m : Masked} {i j k : Nat}

theorem depthFrom_of_topLevelOffset {target : UInt8} {depth n : Nat} {bs : List UInt8}
    (h : topLevelOffset target depth bs = some n) : depthFrom depth (bs.take n) = 0 := by
  induction bs generalizing depth n with
  | nil => exact absurd h nofun
  | cons b bs ih =>
    rw [topLevelOffset] at h
    split at h
    · rename_i hb
      obtain rfl := Option.some.inj h
      simp only [Bool.and_eq_true, decide_eq_true_eq] at hb
      exact hb.1
    · obtain ⟨k, hk, rfl⟩ := Option.map_eq_some_iff.1 h
      exact ih hk

theorem byteSlice_size_eq_cons {b : UInt8} (h : m.bytes[i]? = some b) :
    m.byteSlice i m.size = b :: m.byteSlice (i + 1) m.size := by
  obtain ⟨hlt, rfl⟩ := List.getElem?_eq_some_iff.1 h
  have hsize : i < m.size := hlt
  unfold byteSlice
  rw [List.drop_eq_getElem_cons hlt, show m.size - i = m.size - (i + 1) + 1 by omega,
    List.take_succ_cons]

/-- Before a brace at top level the search at top level comes to a brace. -/
theorem exists_findTopLevel? {start opened : Nat} (hle : start ≤ opened)
    (hbrace : m.hasChar opened '\x7b' = true) (htop : WellNested (m.byteSlice start opened)) :
    ∃ k, m.findTopLevel? start m.size '\x7b' = some k ∧ start ≤ k ∧ k ≤ opened ∧
      WellNested (m.byteSlice start k) := by
  have hsize := lt_size_of_hasChar hbrace
  have hlen := length_byteSlice hle (Nat.le_of_lt hsize)
  have hdepth : depthFrom 0 (m.byteSlice start opened) = 0 := depthFrom_of_nestFrom htop 0
  unfold findTopLevel?
  rw [byteSlice_append hle (Nat.le_of_lt hsize), topLevelOffset_append, hdepth,
    byteSlice_size_eq_cons (hasChar_iff.1 hbrace)]
  cases hfirst : topLevelOffset '\x7b'.toUInt8 0 (m.byteSlice start opened) with
  | none =>
    refine ⟨opened, ?_, hle, Nat.le_refl _, htop⟩
    rw [Option.none_or, topLevelOffset, if_pos (by decide), Option.map_some, Option.map_some, hlen]
    exact congrArg some (by omega)
  | some n =>
    have hlt := (List.getElem?_eq_some_iff.1 (topLevelOffset_eq_some hfirst)).1
    refine ⟨start + n, rfl, Nat.le_add_right _ _, by omega, ?_⟩
    have hslice : (m.byteSlice start opened).take n = m.byteSlice start (start + n) := by
      unfold byteSlice
      rw [List.take_take, Nat.min_eq_left (by omega), Nat.add_sub_cancel_left]
    obtain ⟨st, hst, -⟩ := nestFrom_append_eq_some.1
      (show nestFrom [] ((m.byteSlice start opened).take n ++ (m.byteSlice start opened).drop n) =
        some [] by rw [List.take_append_drop]; exact htop)
    have hheight := depthFrom_of_nestFrom hst 0
    rw [show ([] : List Delimiter).length + 0 = 0 from rfl, depthFrom_of_topLevelOffset hfirst,
      Nat.add_zero] at hheight
    obtain rfl := List.length_eq_zero_iff.1 hheight.symm
    rwa [hslice] at hst

/-- The partner of a delimiter is the closer behind a well-nested text. -/
theorem closer?_of_wellNested {d : Delimiter} (hopens : m.hasChar i d.opener = true) (hlt : i < j)
    (hcloses : m.hasChar j d.closer = true) (h : WellNested (m.byteSlice (i + 1) j)) :
    m.closer? i = some j := by
  have hi := lt_size_of_hasChar hopens
  have hj := lt_size_of_hasChar hcloses
  have hall {n : Nat} : m.byteSlice n m.size = m.bytes.drop n := by
    unfold byteSlice
    exact List.take_of_length_le (by rw [List.length_drop]; exact Nat.le_refl _)
  have hdrop : m.bytes.drop i =
      d.opener.toUInt8 :: (m.byteSlice (i + 1) j ++ d.closer.toUInt8 :: m.byteSlice (j + 1) m.size) := by
    rw [← hall, byteSlice_size_eq_cons (hasChar_iff.1 hopens),
      byteSlice_append hlt (Nat.le_of_lt hj), byteSlice_size_eq_cons (hasChar_iff.1 hcloses)]
  unfold closer?
  simp only [hdrop, Delimiter.ofOpener?_opener, closerOffset_of_wellNested h, Option.map_some,
    length_byteSlice hlt (Nat.le_of_lt hj)]
  exact congrArg some (by omega)

/-- What a well-nested text opens at top level it closes again. -/
theorem exists_closer?_of_wellNested {d : Delimiter} {start stop : Nat} (hstart : start ≤ k)
    (hk : k < stop) (hstop : stop ≤ m.size) (hopens : m.hasChar k d.opener = true)
    (hbefore : WellNested (m.byteSlice start k)) (h : WellNested (m.byteSlice start stop)) :
    ∃ closed, m.closer? k = some closed ∧ k < closed ∧ closed < stop ∧
      WellNested (m.byteSlice start (closed + 1)) ∧ WellNested (m.byteSlice (closed + 1) stop) := by
  have hopened : nestFrom [] (m.byteSlice start (k + 1)) = some [d] := by
    rw [byteSlice_succ (hasChar_iff.1 hopens) hstart, nestFrom_append_of_eq hbefore, nestFrom,
      nestStep_opener]
    rfl
  have hrest : nestFrom [d] (m.byteSlice (k + 1) stop) = some [] := by
    unfold WellNested at h
    rwa [byteSlice_append (Nat.le_succ_of_le hstart) hk, nestFrom_append_of_eq hopened] at h
  obtain ⟨n, hn⟩ := exists_closerOffset (show nestFrom ([] ++ d :: []) _ = some [] from hrest)
  obtain ⟨hinside, hbehind⟩ := nestFrom_of_closerOffset
    (show nestFrom ([] ++ d :: []) _ = some [] from hrest) hn
  have hlen := length_byteSlice hk hstop
  have hlt : n < stop - (k + 1) := hlen ▸ closerOffset_lt hn
  have htake : (m.byteSlice (k + 1) stop).take n = m.byteSlice (k + 1) (k + 1 + n) := by
    unfold byteSlice
    rw [List.take_take, Nat.min_eq_left (Nat.le_of_lt hlt), Nat.add_sub_cancel_left]
  have hdrop : (m.byteSlice (k + 1) stop).drop (n + 1) = m.byteSlice (k + 1 + n + 1) stop := by
    unfold byteSlice
    rw [List.drop_take, List.drop_drop, Nat.add_assoc (k + 1) n 1,
      show stop - (k + 1) - (n + 1) = stop - (k + 1 + (n + 1)) by omega]
  have hcloses : m.hasChar (k + 1 + n) d.closer = true := by
    have hget := closerOffset_eq_some hn
    unfold byteSlice at hget
    rw [List.getElem?_take, if_pos hlt, List.getElem?_drop] at hget
    exact hasChar_iff.2 hget
  rw [htake] at hinside
  rw [hdrop] at hbehind
  refine ⟨k + 1 + n, closer?_of_wellNested hopens (by omega) hcloses hinside, by omega, by omega, ?_,
    hbehind⟩
  have hclosed : nestFrom [] (m.byteSlice start (k + 1 + n)) = some [d] := by
    rw [byteSlice_append (Nat.le_succ_of_le hstart) (Nat.le_add_right _ _),
      nestFrom_append_of_eq hopened, WellNested.nestFrom hinside]
  unfold WellNested
  rw [byteSlice_succ (hasChar_iff.1 hcloses) (by omega), nestFrom_append_of_eq hclosed, nestFrom,
    nestStep_closer]
  rfl

end RpcBindings.Masked
