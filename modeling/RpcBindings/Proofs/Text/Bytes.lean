import RpcBindings.Text.Offset

/-!
Offsets and characters.

An offset is a boundary of a text when some characters of the text end there. Main statements: an
ASCII byte of the UTF-8 form is a character of its own (`exists_split_of_ascii`), and cutting between
two boundaries gives back the characters between them (`exists_split_of_le`).
-/

namespace RpcBindings.Text

/-! ## Bytes of one character -/

theorem utf8EncodeChar_of_narrow {c : Char} (h : c.utf8Size = 1) :
    String.utf8EncodeChar c = [c.toUInt8] :=
  String.utf8EncodeChar_eq_singleton h

theorem le_ofNat_mod_add {n k m : Nat} (hm : 128 ≤ m) (hk : k + m ≤ 256) (hpos : 0 < k) :
    (0x80 : UInt8) ≤ UInt8.ofNat (n % k + m) := by
  have : n % k < k := Nat.mod_lt _ hpos
  have hsize : UInt8.size = 256 := rfl
  rw [UInt8.le_iff_toNat_le, UInt8.toNat_ofNat_of_lt' (by omega)]
  show 128 ≤ n % k + m
  omega

/-- Every byte of a wide character is `0x80` or above. -/
theorem le_of_mem_wide {c : Char} {b : UInt8} (hc : c.utf8Size ≠ 1)
    (hb : b ∈ String.utf8EncodeChar c) : 0x80 ≤ b := by
  unfold String.utf8EncodeChar at hb
  extract_lets v at hb
  split at hb
  · rename_i h
    exact absurd (Char.utf8Size_eq_one_iff.2 (UInt32.le_iff_toNat_le.2 h)) hc
  · split at hb
    · simp only [List.mem_cons, List.not_mem_nil, or_false] at hb
      rcases hb with rfl | rfl <;> exact le_ofNat_mod_add (by decide) (by decide) (by decide)
    · split at hb
      · simp only [List.mem_cons, List.not_mem_nil, or_false] at hb
        rcases hb with rfl | rfl | rfl <;>
          exact le_ofNat_mod_add (by decide) (by decide) (by decide)
      · simp only [List.mem_cons, List.not_mem_nil, or_false] at hb
        rcases hb with rfl | rfl | rfl | rfl <;>
          exact le_ofNat_mod_add (by decide) (by decide) (by decide)

/-! ## Bytes of a text -/

theorem bytes_cons (c : Char) (cs : List Char) :
    bytes (c :: cs) = String.utf8EncodeChar c ++ bytes cs := rfl

theorem bytes_cons_of_narrow {c : Char} (h : c.utf8Size = 1) (cs : List Char) :
    bytes (c :: cs) = c.toUInt8 :: bytes cs := by
  rw [bytes_cons, utf8EncodeChar_of_narrow h]
  rfl

@[simp] theorem length_bytes (cs : List Char) : (bytes cs).length = byteLength cs := by
  induction cs with
  | nil => rfl
  | cons c cs ih => rw [bytes_cons, List.length_append, ih, String.length_utf8EncodeChar]; rfl

theorem drop_bytes_append (a b : List Char) : (bytes (a ++ b)).drop (byteLength a) = bytes b := by
  rw [bytes_append, ← length_bytes, List.drop_left]

theorem take_bytes_append (a b : List Char) : (bytes (a ++ b)).take (byteLength a) = bytes a := by
  rw [bytes_append, ← length_bytes, List.take_left]

theorem length_le_byteLength (cs : List Char) : cs.length ≤ byteLength cs := by
  induction cs with
  | nil => exact Nat.le_refl 0
  | cons c cs ih =>
    have := Char.utf8Size_pos c
    rw [List.length_cons, byteLength_cons]
    omega

theorem byteLength_eq_zero {cs : List Char} (h : byteLength cs = 0) : cs = [] := by
  have := length_le_byteLength cs
  exact List.eq_nil_of_length_eq_zero (by omega)

/-- A text has as many bytes as its string. -/
theorem byteLength_toList (s : String) : byteLength s.toList = s.utf8ByteSize := by
  rw [← String.size_toByteArray, ← length_bytes]
  conv => rhs; rw [← String.ofList_toList (s := s)]
  show _ = (List.utf8Encode s.toList).size
  unfold List.utf8Encode
  rw [List.size_toByteArray]
  rfl

/-- The UTF-8 form tells texts apart. -/
theorem bytes_injective {a b : List Char} (h : bytes a = bytes b) : a = b := by
  have hencode : List.utf8Encode a = List.utf8Encode b := congrArg List.toByteArray h
  have hofList : String.ofList a = String.ofList b := String.toByteArray_inj.1 hencode
  rw [← String.toList_ofList (l := a), hofList, String.toList_ofList]

/-- An ASCII byte is a character, and the characters before it end where it stands. -/
theorem exists_split_of_ascii {cs : List Char} {i : Nat} {b : UInt8}
    (h : (bytes cs)[i]? = some b) (hb : b < 0x80) :
    ∃ before c after, cs = before ++ c :: after ∧ byteLength before = i ∧
      c.utf8Size = 1 ∧ c.toUInt8 = b := by
  induction cs generalizing i with
  | nil => simp at h
  | cons c cs ih =>
    rw [bytes_cons] at h
    by_cases hi : i < (String.utf8EncodeChar c).length
    · rw [List.getElem?_append_left hi] at h
      by_cases hc : c.utf8Size = 1
      · rw [utf8EncodeChar_of_narrow hc] at h hi
        obtain rfl : i = 0 := by simpa using hi
        exact ⟨[], c, cs, rfl, rfl, hc, by simpa using h⟩
      · have := le_of_mem_wide hc (List.mem_of_getElem? h)
        exact absurd hb (UInt8.not_lt.2 this)
    · rw [List.getElem?_append_right (Nat.le_of_not_lt hi)] at h
      obtain ⟨before, d, after, rfl, hlen, hd, hbyte⟩ := ih h
      refine ⟨c :: before, d, after, rfl, ?_, hd, hbyte⟩
      rw [String.length_utf8EncodeChar] at hi hlen
      rw [byteLength_cons]
      omega

/-! ## Cutting at boundaries -/

/-- Some characters of the text end at the offset. -/
def IsBoundary (cs : List Char) (i : Nat) : Prop :=
  ∃ a b, cs = a ++ b ∧ byteLength a = i

theorem isBoundary_zero (cs : List Char) : IsBoundary cs 0 :=
  ⟨[], cs, rfl, rfl⟩

theorem isBoundary_byteLength (cs : List Char) : IsBoundary cs (byteLength cs) :=
  ⟨cs, [], (List.append_nil cs).symm, rfl⟩

theorem IsBoundary.le_byteLength {cs : List Char} {i : Nat} (h : IsBoundary cs i) :
    i ≤ byteLength cs := by
  obtain ⟨a, b, rfl, rfl⟩ := h
  rw [byteLength_append]
  exact Nat.le_add_right _ _

/-- Characters of one byte are told apart by it. -/
theorem eq_of_toUInt8_eq {c d : Char} (hc : c.utf8Size = 1) (hd : d.utf8Size = 1)
    (h : c.toUInt8 = d.toUInt8) : c = d := by
  have : bytes [c] = bytes [d] := by
    rw [bytes_cons_of_narrow hc, bytes_cons_of_narrow hd, h]
  exact (List.cons.inj (bytes_injective this)).1

theorem toUInt8_lt_of_narrow {c : Char} (h : c.utf8Size = 1) : c.toUInt8 < 0x80 := by
  have hle : c.toNat ≤ 127 := Char.utf8Size_eq_one_iff.1 h
  have hnat : c.toUInt8.toNat = c.toNat % 256 := rfl
  rw [UInt8.lt_iff_toNat_lt, hnat]
  show c.toNat % 256 < 128
  omega

/-- An ASCII byte is a character of its own. -/
theorem exists_of_mem_bytes {cs : List Char} {b : UInt8} (h : b ∈ bytes cs) (hb : b < 0x80) :
    ∃ c ∈ cs, c.utf8Size = 1 ∧ c.toUInt8 = b := by
  obtain ⟨i, hi⟩ := List.mem_iff_getElem?.1 h
  obtain ⟨a, c, rest, rfl, -, hc, hbyte⟩ := exists_split_of_ascii hi hb
  exact ⟨c, by simp, hc, hbyte⟩

theorem dropBytes?_append (a b : List Char) : dropBytes? (byteLength a) (a ++ b) = some b := by
  induction a with
  | nil => cases b <;> rfl
  | cons c a ih =>
    have hc : 0 < c.utf8Size := Char.utf8Size_pos c
    obtain ⟨k, hk⟩ : ∃ k, byteLength (c :: a) = k + 1 :=
      ⟨byteLength (c :: a) - 1, by rw [byteLength_cons]; omega⟩
    rw [hk, List.cons_append, dropBytes?]
    rw [byteLength_cons] at hk
    rw [if_pos (by omega), ← hk, Nat.add_sub_cancel_left]
    exact ih

theorem takeBytes?_append (a b : List Char) : takeBytes? (byteLength a) (a ++ b) = some a := by
  induction a with
  | nil => cases b <;> rfl
  | cons c a ih =>
    have hc : 0 < c.utf8Size := Char.utf8Size_pos c
    obtain ⟨k, hk⟩ : ∃ k, byteLength (c :: a) = k + 1 :=
      ⟨byteLength (c :: a) - 1, by rw [byteLength_cons]; omega⟩
    rw [hk, List.cons_append, takeBytes?]
    rw [byteLength_cons] at hk
    rw [if_pos (by omega), ← hk, Nat.add_sub_cancel_left, ih]
    rfl

/-- What is dropped up to a boundary are the characters before it. -/
theorem dropBytes?_eq_some_iff {n : Nat} {cs rest : List Char} :
    dropBytes? n cs = some rest ↔ ∃ a, cs = a ++ rest ∧ byteLength a = n := by
  constructor
  · intro h
    induction cs generalizing n with
    | nil =>
      cases n with
      | zero => exact ⟨[], by simpa [dropBytes?] using h, rfl⟩
      | succ n => simp [dropBytes?] at h
    | cons c cs ih =>
      cases n with
      | zero => exact ⟨[], by simpa [dropBytes?] using h, rfl⟩
      | succ n =>
        rw [dropBytes?] at h
        split at h
        · obtain ⟨a, rfl, ha⟩ := ih h
          exact ⟨c :: a, rfl, by rw [byteLength_cons]; omega⟩
        · simp at h
  · rintro ⟨a, rfl, rfl⟩
    exact dropBytes?_append a rest

theorem isBoundary_iff {cs : List Char} {i : Nat} :
    IsBoundary cs i ↔ (dropBytes? i cs).isSome = true := by
  rw [Option.isSome_iff_exists]
  constructor
  · rintro ⟨a, b, hcs, hi⟩
    exact ⟨b, dropBytes?_eq_some_iff.2 ⟨a, hcs, hi⟩⟩
  · rintro ⟨b, hb⟩
    obtain ⟨a, hcs, hi⟩ := dropBytes?_eq_some_iff.1 hb
    exact ⟨a, b, hcs, hi⟩

instance (cs : List Char) (i : Nat) : Decidable (IsBoundary cs i) :=
  decidable_of_iff _ isBoundary_iff.symm

/-- Cutting between two boundaries gives the characters between them. -/
theorem exists_split_of_le {cs a rest b after : List Char} (hi : cs = a ++ rest)
    (hj : cs = b ++ after) (h : byteLength a ≤ byteLength b) :
    ∃ mid, b = a ++ mid ∧ rest = mid ++ after ∧ cut (byteLength a) (byteLength b) cs = mid := by
  obtain ⟨mid, hb, hrest⟩ | ⟨mid, ha, hafter⟩ := List.append_eq_append_iff.1 (hi.symm.trans hj)
  · refine ⟨mid, hb, hrest, ?_⟩
    subst hb hi hrest
    have := cut_append a mid after
    rwa [List.append_assoc, ← byteLength_append] at this
  · have hlen := congrArg byteLength ha
    rw [byteLength_append] at hlen
    obtain rfl := @byteLength_eq_zero mid (by omega)
    refine ⟨[], by simpa using ha.symm, by simpa using hafter.symm, ?_⟩
    rw [List.append_nil] at ha
    subst ha
    rw [cut, Nat.sub_self, takeBytes]

/-! ## Cutting one text behind another -/

theorem dropBytes_cons_of_le {c : Char} {n : Nat} (h : c.utf8Size ≤ n) (cs : List Char) :
    dropBytes n (c :: cs) = dropBytes (n - c.utf8Size) cs := by
  have hc := Char.utf8Size_pos c
  cases n with
  | zero => omega
  | succ n => rfl

/-- What is dropped of two texts past the first one is dropped of the second. -/
theorem dropBytes_append_add (a b : List Char) (n : Nat) :
    dropBytes (byteLength a + n) (a ++ b) = dropBytes n b := by
  induction a with
  | nil => rw [List.nil_append, byteLength_nil, Nat.zero_add]
  | cons c a ih =>
    rw [List.cons_append, byteLength_cons, dropBytes_cons_of_le (by omega), ← ih]
    congr 1
    omega

theorem dropBytes?_append_add (a b : List Char) (n : Nat) :
    dropBytes? (byteLength a + n) (a ++ b) = dropBytes? n b := by
  induction a with
  | nil => rw [List.nil_append, byteLength_nil, Nat.zero_add]
  | cons c a ih =>
    have hc := Char.utf8Size_pos c
    obtain ⟨k, hk⟩ : ∃ k, byteLength (c :: a) + n = k + 1 :=
      ⟨byteLength (c :: a) + n - 1, by rw [byteLength_cons]; omega⟩
    rw [hk, List.cons_append, dropBytes?]
    rw [byteLength_cons] at hk
    rw [if_pos (by omega), ← ih]
    congr 1
    omega

theorem takeBytes_append_of_le {a : List Char} {n : Nat} (h : n ≤ byteLength a) (b : List Char) :
    takeBytes n (a ++ b) = takeBytes n a := by
  induction a generalizing n with
  | nil =>
    obtain rfl : n = 0 := Nat.le_zero.1 h
    rw [takeBytes, takeBytes]
  | cons c a ih =>
    cases n with
    | zero => rfl
    | succ n =>
      rw [byteLength_cons] at h
      rw [List.cons_append, takeBytes, takeBytes, ih (by omega)]

theorem takeBytes_append_add (a b : List Char) (n : Nat) :
    takeBytes (byteLength a + n) (a ++ b) = a ++ takeBytes n b := by
  induction a with
  | nil => rw [List.nil_append, List.nil_append, byteLength_nil, Nat.zero_add]
  | cons c a ih =>
    have hc := Char.utf8Size_pos c
    obtain ⟨k, hk⟩ : ∃ k, byteLength (c :: a) + n = k + 1 :=
      ⟨byteLength (c :: a) + n - 1, by rw [byteLength_cons]; omega⟩
    rw [hk, List.cons_append, takeBytes, List.cons_append, ← ih]
    rw [byteLength_cons] at hk
    congr 2
    omega

/-- A part of the second of two texts is cut out behind the first. -/
theorem cut_append_add (a b : List Char) (i j : Nat) :
    cut (byteLength a + i) (byteLength a + j) (a ++ b) = cut i j b := by
  rw [cut, cut, dropBytes_append_add, Nat.add_sub_add_left]

/-- From a boundary on a part of the first of two texts is cut out as from the first alone. -/
theorem cut_append_of_le {a x y : List Char} {j : Nat} (hx : a = x ++ y) (hj : j ≤ byteLength a)
    (b : List Char) : cut (byteLength x) j (a ++ b) = cut (byteLength x) j a := by
  subst hx
  rw [byteLength_append] at hj
  rw [cut, cut, List.append_assoc, dropBytes_append, dropBytes_append,
    takeBytes_append_of_le (by omega)]

end RpcBindings.Text
