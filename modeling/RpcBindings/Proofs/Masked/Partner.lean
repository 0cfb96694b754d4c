import Mathlib.Data.List.Nodup
import Mathlib.Order.Bounds.Basic
import RpcBindings.Proofs.Masked.Nest

/-!
Partners of delimiters.

The search for the partner of an opener counts the delimiters of one kind and passes by the other two.
It ends where for the first time as many of that kind are closed as are opened, and the count does not
fall below nothing on the way. `partnersFrom` pairs the delimiters of all kinds instead, each closer
with the innermost opener that is still open. Main statement: the search finds the first offset of equal
numbers, and in a well-nested text that is the partner which the nesting has (`closer?_partner`).
-/

namespace RpcBindings

namespace Masked

open Delimiter

/-! ## The depth of one kind -/

/-- The depth of one kind of delimiter after one more byte. -/
def kindDepth (d : Delimiter) (depth : Nat) (b : UInt8) : Nat :=
  if b = d.opener.toUInt8 then depth + 1
  else if b = d.closer.toUInt8 then depth - 1
  else depth

/-- Bytes bring the depth of one kind down to nothing. -/
def Returns (d : Delimiter) (depth : Nat) (bs : List UInt8) : Prop :=
  depth + bs.count d.opener.toUInt8 = bs.count d.closer.toUInt8

/-- Behind the bytes something of one kind is still open. -/
def StaysOpen (d : Delimiter) (depth : Nat) (bs : List UInt8) : Prop :=
  bs.count d.closer.toUInt8 < depth + bs.count d.opener.toUInt8

section Depth

variable {d : Delimiter} {depth n k : Nat} {b : UInt8} {bs : List UInt8}

theorem closerOffset_cons (d : Delimiter) (depth : Nat) (b : UInt8) (bs : List UInt8) :
    closerOffset d depth (b :: bs) =
      if b = d.closer.toUInt8 ∧ depth ≤ 1 then some 0
      else (closerOffset d (kindDepth d depth b) bs).map (· + 1) := by
  rw [closerOffset, kindDepth]
  by_cases hopens : b = d.opener.toUInt8
  · have hcloses : b ≠ d.closer.toUInt8 := hopens ▸ opener_ne_closer d d
    simp [hopens ▸ hcloses, hopens]
  · by_cases hcloses : b = d.closer.toUInt8
    · have hne : d.closer.toUInt8 ≠ d.opener.toUInt8 := (opener_ne_closer d d).symm
      simp [hcloses, hne]
    · simp [hopens, hcloses]

/-- The depth falls to nothing at the closer of the last open delimiter only. -/
theorem kindDepth_pos (hdepth : 0 < depth) (h : ¬(b = d.closer.toUInt8 ∧ depth ≤ 1)) :
    0 < kindDepth d depth b := by
  unfold kindDepth
  split
  · omega
  · split
    · rename_i hcloses
      have : ¬depth ≤ 1 := fun hle => h ⟨hcloses, hle⟩
      omega
    · exact hdepth

/-- A byte moves the depth by what it opens and closes. -/
theorem add_count_eq (hdepth : 0 < depth) :
    depth + [b].count d.opener.toUInt8 = kindDepth d depth b + [b].count d.closer.toUInt8 := by
  have hne := opener_ne_closer d d
  unfold kindDepth
  split
  · rename_i hopens
    subst hopens
    rw [List.count_singleton_self, List.count_eq_zero_of_not_mem (by simpa using hne.symm)]
  · rename_i hopens
    rw [List.count_eq_zero_of_not_mem (by simpa using Ne.symm hopens)]
    split
    · rename_i hcloses
      subst hcloses
      rw [List.count_singleton_self]
      omega
    · rename_i hcloses
      rw [List.count_eq_zero_of_not_mem (by simpa using Ne.symm hcloses)]

theorem returns_cons (hdepth : 0 < depth) :
    Returns d depth (b :: bs) ↔ Returns d (kindDepth d depth b) bs := by
  have hbyte := add_count_eq (d := d) (b := b) hdepth
  unfold Returns
  rw [← List.singleton_append, List.count_append, List.count_append]
  omega

theorem staysOpen_cons (hdepth : 0 < depth) :
    StaysOpen d depth (b :: bs) ↔ StaysOpen d (kindDepth d depth b) bs := by
  have hbyte := add_count_eq (d := d) (b := b) hdepth
  unfold StaysOpen
  rw [← List.singleton_append, List.count_append, List.count_append]
  omega

/-- Where the search ends as many are closed as are opened. -/
theorem returns_of_closerOffset (hdepth : 0 < depth) (h : closerOffset d depth bs = some n) :
    Returns d depth (bs.take (n + 1)) := by
  induction bs generalizing depth n with
  | nil => exact absurd h nofun
  | cons b bs ih =>
    rw [closerOffset_cons] at h
    split at h
    · rename_i hends
      obtain ⟨rfl, hle⟩ := hends
      obtain rfl := Option.some.inj h
      obtain rfl : depth = 1 := by omega
      have hne := opener_ne_closer d d
      unfold Returns
      rw [List.take_succ_cons, List.take_zero, List.count_singleton_self,
        List.count_eq_zero_of_not_mem (by simpa using hne)]
    · rename_i hpassed
      obtain ⟨k, hk, rfl⟩ := Option.map_eq_some_iff.1 h
      rw [List.take_succ_cons, returns_cons hdepth]
      exact ih (kindDepth_pos hdepth hpassed) hk

/-- As long as the search goes on something is open. -/
theorem staysOpen_of_passed (hdepth : 0 < depth) (hk : k < bs.length)
    (h : ∀ n, closerOffset d depth bs = some n → k < n) : StaysOpen d depth (bs.take (k + 1)) := by
  induction bs generalizing depth k with
  | nil => exact absurd hk (Nat.not_lt_zero k)
  | cons b bs ih =>
    rw [closerOffset_cons] at h
    split at h
    · exact absurd (h 0 rfl) (Nat.not_lt_zero k)
    · rename_i hpassed
      have hafter := kindDepth_pos hdepth hpassed
      rw [List.take_succ_cons, staysOpen_cons hdepth]
      cases k with
      | zero => exact hafter
      | succ k =>
        refine ih hafter (Nat.lt_of_succ_lt_succ hk) fun n hn => ?_
        have := h (n + 1) (by rw [hn]; rfl)
        omega

end Depth

/-! ## Counting from an opener -/

/-- How often a character stands between two offsets, both of them included. -/
def countBetween (m : Masked) (c : Char) (i j : Nat) : Nat :=
  (m.byteSlice i (j + 1)).count c.toUInt8

section Search

variable {m : Masked} {d : Delimiter} {i j k : Nat}

theorem drop_of_hasChar {c : Char} (h : m.hasChar i c = true) :
    m.bytes.drop i = c.toUInt8 :: m.bytes.drop (i + 1) := by
  obtain ⟨hlt, hget⟩ := List.getElem?_eq_some_iff.1 (hasChar_iff.1 h)
  rw [List.drop_eq_getElem_cons hlt, hget]

theorem closer?_of_opener (h : m.hasChar i d.opener = true) :
    m.closer? i = (closerOffset d 1 (m.bytes.drop (i + 1))).map (i + 1 + ·) := by
  unfold closer?
  simp only [drop_of_hasChar h, ofOpener?_opener]

/-- What is counted from an opener on is the opener, and what is counted behind it. -/
theorem countBetween_of_opener (h : m.hasChar i d.opener = true) (k : Nat) :
    m.countBetween d.opener i (i + 1 + k) =
        1 + ((m.bytes.drop (i + 1)).take (k + 1)).count d.opener.toUInt8 ∧
      m.countBetween d.closer i (i + 1 + k) =
        ((m.bytes.drop (i + 1)).take (k + 1)).count d.closer.toUInt8 := by
  have hslice : m.byteSlice i (i + 1 + k + 1) =
      d.opener.toUInt8 :: (m.bytes.drop (i + 1)).take (k + 1) := by
    unfold byteSlice
    rw [drop_of_hasChar h, show i + 1 + k + 1 - i = k + 1 + 1 by omega, List.take_succ_cons]
  unfold countBetween
  rw [hslice, List.count_cons_self, List.count_cons_of_ne (opener_ne_closer d d)]
  exact ⟨Nat.add_comm _ _, rfl⟩

/-- Where the partner stands the numbers are equal. -/
theorem countBetween_eq_of_closer? (h : m.hasChar i d.opener = true) (hj : m.closer? i = some j) :
    m.countBetween d.opener i j = m.countBetween d.closer i j := by
  rw [closer?_of_opener h] at hj
  obtain ⟨k, hk, rfl⟩ := Option.map_eq_some_iff.1 hj
  obtain ⟨hopened, hclosed⟩ := countBetween_of_opener h k
  rw [hopened, hclosed]
  exact returns_of_closerOffset Nat.one_pos hk

/-- Before the partner, and everywhere when there is none, more are opened than closed. -/
theorem countBetween_lt_of_passed (h : m.hasChar i d.opener = true) (hij : i ≤ j) (hj : j < m.size)
    (hpassed : ∀ c, m.closer? i = some c → j < c) :
    m.countBetween d.closer i j < m.countBetween d.opener i j := by
  rcases Nat.eq_or_lt_of_le hij with rfl | hlt
  · have hslice : m.byteSlice i (i + 1) = [d.opener.toUInt8] := by
      unfold byteSlice
      rw [drop_of_hasChar h, Nat.add_sub_cancel_left, List.take_succ_cons, List.take_zero]
    unfold countBetween
    rw [hslice, List.count_singleton_self,
      List.count_eq_zero_of_not_mem (by simpa using (opener_ne_closer d d).symm)]
    exact Nat.one_pos
  · obtain ⟨k, rfl⟩ : ∃ k, j = i + 1 + k := ⟨j - (i + 1), by omega⟩
    obtain ⟨hopened, hclosed⟩ := countBetween_of_opener h k
    rw [hopened, hclosed]
    refine staysOpen_of_passed Nat.one_pos ?_ fun n hn => ?_
    · unfold size at hj
      rw [List.length_drop]
      omega
    · rw [closer?_of_opener h, hn] at hpassed
      have : i + 1 + k < i + 1 + n := hpassed _ rfl
      omega

/-- The partner stands at the first offset where as many are closed as are opened. -/
theorem closer?_eq_some_iff_isLeast (h : m.hasChar i d.opener = true) (c : Nat) :
    m.closer? i = some c ↔
      IsLeast {j | i < j ∧ j < m.size ∧ m.countBetween d.opener i j = m.countBetween d.closer i j}
        c := by
  have hleast {c : Nat} (hc : m.closer? i = some c) : IsLeast {j | i < j ∧ j < m.size ∧
      m.countBetween d.opener i j = m.countBetween d.closer i j} c := by
    obtain ⟨hlt, hsize⟩ := lt_of_closer? hc
    refine ⟨⟨hlt, hsize, countBetween_eq_of_closer? h hc⟩, fun j ⟨hij, hj, heq⟩ => ?_⟩
    refine Nat.le_of_not_lt fun hjc => ?_
    have := countBetween_lt_of_passed h (Nat.le_of_lt hij) hj fun c' hc' => by
      obtain rfl := Option.some.inj (hc.symm.trans hc')
      exact hjc
    omega
  refine ⟨hleast, fun hc => ?_⟩
  cases hfound : m.closer? i with
  | some c' => rw [IsLeast.unique (hleast hfound) hc]
  | none =>
    obtain ⟨hlt, hsize, heq⟩ := hc.1
    have := countBetween_lt_of_passed h (Nat.le_of_lt hlt) hsize fun c' hc' =>
      absurd (hfound.symm.trans hc') nofun
    omega

end Search

/-! ## The partners of a nesting -/

/-- The pairs of partners in bytes that begin at an offset, when openers at some offsets are open, the
innermost first: each closer belongs to the innermost opener that is open there. -/
def partnersFrom : List Nat → Nat → List UInt8 → List (Nat × Nat)
  | _, _, [] => []
  | opened, i, b :: bs =>
    if (ofOpener? b).isSome then partnersFrom (i :: opened) (i + 1) bs
    else if (ofCloser? b).isSome then
      (opened.head?.map (·, i)).toList ++ partnersFrom opened.tail (i + 1) bs
    else partnersFrom opened (i + 1) bs

/-- The offsets of all openers with those of their closers. -/
def partners (m : Masked) : List (Nat × Nat) :=
  partnersFrom [] 0 m.bytes

section Partners

variable {d : Delimiter} {b : UInt8} {bs : List UInt8} {opened : List Nat} {i : Nat}

theorem partnersFrom_of_isPlain (h : isPlain b = true) (opened : List Nat) (i : Nat)
    (bs : List UInt8) : partnersFrom opened i (b :: bs) = partnersFrom opened (i + 1) bs := by
  unfold isPlain at h
  rw [Bool.and_eq_true, Option.isNone_iff_eq_none, Option.isNone_iff_eq_none] at h
  simp [partnersFrom, h.1, h.2]

theorem partnersFrom_opener (d : Delimiter) (opened : List Nat) (i : Nat) (bs : List UInt8) :
    partnersFrom opened i (d.opener.toUInt8 :: bs) = partnersFrom (i :: opened) (i + 1) bs := by
  simp [partnersFrom, ofOpener?_opener]

theorem partnersFrom_closer (d : Delimiter) (j : Nat) (outer : List Nat) (i : Nat)
    (bs : List UInt8) :
    partnersFrom (j :: outer) i (d.closer.toUInt8 :: bs) =
      (j, i) :: partnersFrom outer (i + 1) bs := by
  simp [partnersFrom, ofOpener?_closer, ofCloser?_closer]

/-- An opener has one partner, and stands among those that are open or further on. -/
theorem nodup_partnersFrom (hopened : opened.Nodup) (hlt : ∀ j ∈ opened, j < i) :
    ((partnersFrom opened i bs).map Prod.fst).Nodup ∧
      ∀ j ∈ (partnersFrom opened i bs).map Prod.fst, j ∈ opened ∨ i ≤ j := by
  induction bs generalizing opened i with
  | nil => exact ⟨List.nodup_nil, fun j hj => absurd hj List.not_mem_nil⟩
  | cons b bs ih =>
    have hnext : ∀ j ∈ opened, j < i + 1 := fun j hj => Nat.lt_succ_of_lt (hlt j hj)
    rw [partnersFrom]
    split
    · obtain ⟨hnodup, hmem⟩ := @ih (i :: opened) (i + 1)
        (List.nodup_cons.2 ⟨fun hi => absurd (hlt i hi) (Nat.lt_irrefl i), hopened⟩)
        (List.forall_mem_cons.2 ⟨Nat.lt_succ_self i, hnext⟩)
      refine ⟨hnodup, fun j hj => ?_⟩
      rcases hmem j hj with hj | hj
      · rcases List.mem_cons.1 hj with rfl | hj
        · exact .inr (Nat.le_refl j)
        · exact .inl hj
      · exact .inr (Nat.le_of_succ_le hj)
    · split
      · cases opened with
        | nil =>
          obtain ⟨hnodup, hmem⟩ := ih hopened hnext
          exact ⟨hnodup, fun j hj => (hmem j hj).imp_right Nat.le_of_succ_le⟩
        | cons j outer =>
          obtain ⟨hj, houter⟩ := List.nodup_cons.1 hopened
          obtain ⟨hnodup, hmem⟩ :=
            @ih outer (i + 1) houter fun k hk => hnext k (List.mem_cons_of_mem j hk)
          have hji := hlt j List.mem_cons_self
          refine ⟨List.nodup_cons.2 ⟨fun hlater => ?_, hnodup⟩, fun k hk => ?_⟩
          · rcases hmem j hlater with hlater | hlater
            · exact hj hlater
            · omega
          · rcases List.mem_cons.1 hk with rfl | hk
            · exact .inl List.mem_cons_self
            · exact (hmem k hk).imp (List.mem_cons_of_mem j) Nat.le_of_succ_le
      · obtain ⟨hnodup, hmem⟩ := ih hopened hnext
        exact ⟨hnodup, fun j hj => (hmem j hj).imp_right Nat.le_of_succ_le⟩

/-- Over bytes that the stack of kinds accepts, the stack of offsets goes along with it, and what is
open further out is not touched. -/
theorem exists_partnersFrom_append {st st' : List Delimiter} {a : List UInt8}
    (h : nestFrom st a = some st') {inner : List Nat} (hinner : inner.length = st.length)
    (outer : List Nat) (i : Nat) : ∃ inner' pairs, inner'.length = st'.length ∧
      ∀ b, partnersFrom (inner ++ outer) i (a ++ b) =
        pairs ++ partnersFrom (inner' ++ outer) (i + a.length) b := by
  induction a generalizing st inner i with
  | nil =>
    obtain rfl := Option.some.inj h
    exact ⟨inner, [], hinner, fun b => rfl⟩
  | cons c a ih =>
    rw [nestFrom] at h
    obtain ⟨after, hstep, hrest⟩ := Option.bind_eq_some_iff.1 h
    have hoffset : i + (c :: a).length = i + 1 + a.length := by
      rw [List.length_cons]
      omega
    rw [hoffset]
    obtain ⟨hplain, rfl⟩ | ⟨d, rfl, rfl⟩ | ⟨d, rfl, rfl⟩ := nestStep_eq_some hstep
    · obtain ⟨inner', pairs, hlength, hpairs⟩ := ih hrest hinner (i + 1)
      refine ⟨inner', pairs, hlength, fun b => ?_⟩
      rw [List.cons_append, partnersFrom_of_isPlain hplain, hpairs]
    · obtain ⟨inner', pairs, hlength, hpairs⟩ :=
        @ih _ hrest (i :: inner) (congrArg (· + 1) hinner) (i + 1)
      refine ⟨inner', pairs, hlength, fun b => ?_⟩
      rw [List.cons_append, partnersFrom_opener, ← List.cons_append, hpairs]
    · cases inner with
      | nil => exact absurd hinner (Nat.succ_ne_zero _).symm
      | cons j inner =>
        obtain ⟨inner', pairs, hlength, hpairs⟩ := ih hrest (Nat.succ.inj hinner) (i + 1)
        refine ⟨inner', (j, i) :: pairs, hlength, fun b => ?_⟩
        rw [List.cons_append, List.cons_append, partnersFrom_closer, hpairs]
        rfl

end Partners

/-- In a well-nested text the partner that the search finds is the one that the nesting has. -/
theorem mem_partners_iff {m : Masked} {d : Delimiter} {i c : Nat} (h : WellNested m.bytes)
    (hopens : m.hasChar i d.opener = true) (hc : m.closer? i = some c) (k : Nat) :
    (i, k) ∈ m.partners ↔ k = c := by
  have hfound : (i, c) ∈ m.partners := by
    rw [closer?_of_opener hopens] at hc
    obtain ⟨n, hn, rfl⟩ := Option.map_eq_some_iff.1 hc
    have hi := lt_size_of_hasChar hopens
    have hdrop := drop_of_hasChar hopens
    generalize hrest : m.bytes.drop (i + 1) = rest at hn hdrop
    have hlast : rest.drop n = d.closer.toUInt8 :: rest.drop (n + 1) := by
      obtain ⟨hlt, hget⟩ := List.getElem?_eq_some_iff.1 (closerOffset_eq_some hn)
      rw [List.drop_eq_getElem_cons hlt, hget]
    have hn' := closerOffset_lt hn
    unfold WellNested at h
    rw [← List.take_append_drop i m.bytes, hdrop] at h
    obtain ⟨st, hbefore, hbehind⟩ := nestFrom_append_eq_some.1 h
    rw [nestFrom, nestStep_opener, Option.bind_some] at hbehind
    obtain ⟨hbetween, -⟩ := @nestFrom_of_closerOffset d [] st [] rest n hbehind hn
    obtain ⟨outer, pairs, -, hpairs⟩ :=
      @exists_partnersFrom_append [] st _ hbefore [] rfl [] 0
    obtain ⟨inner, pairs', hinner, hpairs'⟩ :=
      @exists_partnersFrom_append [] [] _ hbetween [] rfl (i :: outer) (i + 1)
    obtain rfl := List.length_eq_zero_iff.1 hinner
    have hsplit : rest = rest.take n ++ d.closer.toUInt8 :: rest.drop (n + 1) := by
      rw [← hlast, List.take_append_drop]
    have htake : (m.bytes.take i).length = i := List.length_take_of_le (Nat.le_of_lt hi)
    have hlength : (rest.take n).length = n := List.length_take_of_le (Nat.le_of_lt hn')
    unfold partners
    rw [← List.take_append_drop i m.bytes, hdrop]
    have hread := hpairs (d.opener.toUInt8 :: rest)
    rw [List.nil_append] at hread
    rw [hread, partnersFrom_opener, htake, Nat.zero_add, List.append_nil]
    conv in rest => rw [hsplit]
    have hread' := hpairs' (d.closer.toUInt8 :: rest.drop (n + 1))
    rw [List.nil_append] at hread'
    rw [hread', partnersFrom_closer, hlength]
    simp
  refine ⟨fun hk => ?_, fun hk => hk ▸ hfound⟩
  have hnodup := (@nodup_partnersFrom m.bytes [] 0 List.nodup_nil
    fun j hj => absurd hj List.not_mem_nil).1
  exact congrArg Prod.snd (List.inj_on_of_nodup_map hnodup hk hfound rfl)

/-- The partner of an opener is found by counting the delimiters of its kind alone: it stands at the
first offset behind the opener where as many are closed as are opened, and before it, or everywhere when
there is none, fewer are closed. In a text whose delimiters of all kinds are well nested it is the
partner that the nesting has, and what stands between the two is well nested. -/
theorem closer?_partner (m : Masked) (d : Delimiter) {i : Nat}
    (h : m.hasChar i d.opener = true) :
    (∀ c, m.closer? i = some c ↔
      IsLeast {j | i < j ∧ j < m.size ∧
        m.countBetween d.opener i j = m.countBetween d.closer i j} c) ∧
    (∀ j, i ≤ j → j < m.size → (∀ c, m.closer? i = some c → j < c) →
      m.countBetween d.closer i j < m.countBetween d.opener i j) ∧
    (WellNested m.bytes → ∃ c, m.closer? i = some c ∧ (∀ k, (i, k) ∈ m.partners ↔ k = c) ∧
      WellNested (m.byteSlice (i + 1) c)) := by
  refine ⟨closer?_eq_some_iff_isLeast h, fun j => countBetween_lt_of_passed h, fun hnest => ?_⟩
  obtain ⟨c, hc⟩ := exists_closer? hnest (hasChar_iff.1 h)
  exact ⟨c, hc, mem_partners_iff hnest h hc, wellNested_of_closer? hnest hc⟩

/-- A call with delimiters of all kinds between its parentheses, and one more in a literal. -/
def mixedCall : Masked :=
  .ofSource .go "f(a[g(1)], T\x7b\")\"\x7d, h())".toList

theorem closer?_partner_mixedCall :
    mixedCall.hasChar 1 paren.opener = true ∧ WellNested mixedCall.bytes ∧
      mixedCall.closer? 1 = some 22 ∧ (∀ k, (1, k) ∈ mixedCall.partners ↔ k = 22) ∧
      mixedCall.countBetween '(' 1 21 = 3 ∧ mixedCall.countBetween ')' 1 21 = 2 := by
  have hopens : mixedCall.hasChar 1 paren.opener = true := by decide +kernel
  have hnest : WellNested mixedCall.bytes := by decide +kernel
  obtain ⟨-, -, hpartner⟩ := closer?_partner mixedCall paren hopens
  obtain ⟨c, hc, hpartners, -⟩ := hpartner hnest
  have hfound : mixedCall.closer? 1 = some 22 := by decide +kernel
  obtain rfl : c = 22 := Option.some.inj (hc.symm.trans hfound)
  exact ⟨hopens, hnest, hfound, hpartners, by decide +kernel, by decide +kernel⟩

end Masked

end RpcBindings
