/-!
Sets of code points as ranges in increasing order.
-/

namespace RpcBindings.Text

/-- Whether a code point lies in one of some ranges, which stand in increasing order. -/
def inRanges (n : Nat) : List (Nat × Nat) → Bool
  | [] => false
  | r :: rs => if n < r.1 then false else if n ≤ r.2 then true else inRanges n rs

/-- A code point in the ranges lies in one of them. -/
theorem exists_of_inRanges {n : Nat} {rs : List (Nat × Nat)} (h : inRanges n rs = true) :
    ∃ r ∈ rs, r.1 ≤ n ∧ n ≤ r.2 := by
  induction rs with
  | nil => simp [inRanges] at h
  | cons r rs ih =>
    by_cases low : n < r.1
    · simp [inRanges, low] at h
    · by_cases high : n ≤ r.2
      · exact ⟨r, by simp, by omega, high⟩
      · simp only [inRanges, low, high, if_false] at h
        obtain ⟨q, hq, bounds⟩ := ih h
        exact ⟨q, by simp [hq], bounds⟩

end RpcBindings.Text
