/-!
Byte offsets into a text.

An offset counts the bytes of the UTF-8 form. Cutting at an offset inside a character moves the
cut to the end of that character; `dropBytes?` refuses instead.
-/

namespace RpcBindings.Text

/-- The length of the UTF-8 form. -/
def byteLength : List Char → Nat
  | [] => 0
  | c :: cs => c.utf8Size + byteLength cs

/-- The UTF-8 form. -/
def bytes (cs : List Char) : List UInt8 :=
  cs.flatMap String.utf8EncodeChar

def dropBytes : Nat → List Char → List Char
  | 0, cs => cs
  | _ + 1, [] => []
  | n + 1, c :: cs => dropBytes (n + 1 - c.utf8Size) cs

def takeBytes : Nat → List Char → List Char
  | 0, _ => []
  | _ + 1, [] => []
  | n + 1, c :: cs => c :: takeBytes (n + 1 - c.utf8Size) cs

/-- The text between two offsets. -/
def cut (start stop : Nat) (cs : List Char) : List Char :=
  takeBytes (stop - start) (dropBytes start cs)

/-- The text from an offset on, which must not lie inside a character or past the end. -/
def dropBytes? : Nat → List Char → Option (List Char)
  | 0, cs => some cs
  | _ + 1, [] => none
  | n + 1, c :: cs => if c.utf8Size ≤ n + 1 then dropBytes? (n + 1 - c.utf8Size) cs else none

/-- The text up to an offset, under the same conditions. -/
def takeBytes? : Nat → List Char → Option (List Char)
  | 0, _ => some []
  | _ + 1, [] => none
  | n + 1, c :: cs =>
    if c.utf8Size ≤ n + 1 then (takeBytes? (n + 1 - c.utf8Size) cs).map (c :: ·) else none

/-- The text between two offsets, both on character boundaries and in order. -/
def cut? (start stop : Nat) (cs : List Char) : Option (List Char) :=
  if start ≤ stop then (dropBytes? start cs).bind (takeBytes? (stop - start)) else none

/-! ## Small facts -/

@[simp] theorem byteLength_nil : byteLength [] = 0 := rfl

@[simp] theorem byteLength_cons (c : Char) (cs : List Char) :
    byteLength (c :: cs) = c.utf8Size + byteLength cs := rfl

@[simp] theorem byteLength_append (a b : List Char) :
    byteLength (a ++ b) = byteLength a + byteLength b := by
  induction a with
  | nil => simp
  | cons c a ih => simp [ih, Nat.add_assoc]

@[simp] theorem bytes_nil : bytes [] = [] := rfl

@[simp] theorem bytes_append (a b : List Char) : bytes (a ++ b) = bytes a ++ bytes b := by
  simp [bytes]

@[simp] theorem dropBytes_zero (cs : List Char) : dropBytes 0 cs = cs := by
  cases cs <;> rfl

/-- Dropping as many bytes as a text has leaves what follows it. -/
theorem dropBytes_append (a b : List Char) : dropBytes (byteLength a) (a ++ b) = b := by
  induction a with
  | nil => simp
  | cons c a ih =>
    have hc : 0 < c.utf8Size := Char.utf8Size_pos c
    obtain ⟨k, hk⟩ : ∃ k, c.utf8Size + byteLength a = k + 1 := ⟨c.utf8Size + byteLength a - 1, by omega⟩
    simp only [byteLength_cons, List.cons_append, hk, dropBytes]
    rw [← hk, Nat.add_sub_cancel_left]
    exact ih

/-- Taking as many bytes as a text has gives the text back. -/
theorem takeBytes_append (a b : List Char) : takeBytes (byteLength a) (a ++ b) = a := by
  induction a with
  | nil => cases b <;> simp [takeBytes]
  | cons c a ih =>
    have hc : 0 < c.utf8Size := Char.utf8Size_pos c
    obtain ⟨k, hk⟩ : ∃ k, c.utf8Size + byteLength a = k + 1 := ⟨c.utf8Size + byteLength a - 1, by omega⟩
    simp only [byteLength_cons, List.cons_append, hk, takeBytes]
    rw [← hk, Nat.add_sub_cancel_left, ih]

/-- A part of a text is cut out by the offsets of its two ends. -/
theorem cut_append (a b c : List Char) :
    cut (byteLength a) (byteLength a + byteLength b) (a ++ b ++ c) = b := by
  rw [cut, List.append_assoc, dropBytes_append, Nat.add_sub_cancel_left, takeBytes_append]

/-! ## Searches in bytes -/

/-- How far into the bytes the first occurrence of a pattern stands. -/
def findBytes? (pattern : List UInt8) : List UInt8 → Option Nat
  | [] => if pattern.isEmpty then some 0 else none
  | b :: bs =>
    if pattern.isPrefixOf (b :: bs) then some 0 else (findBytes? pattern bs).map (· + 1)

/-- How many bytes there are up to the last one with a property, that one included; none when no
byte has it. -/
def lengthThroughLast (p : UInt8 → Bool) (bs : List UInt8) : Nat :=
  (bs.reverse.dropWhile (!p ·)).length

/-- Where a pattern is found it stands. -/
theorem isPrefixOf_drop_of_findBytes? {pattern bs : List UInt8} {n : Nat}
    (h : findBytes? pattern bs = some n) : pattern.isPrefixOf (bs.drop n) = true := by
  induction bs generalizing n with
  | nil =>
    simp only [findBytes?] at h
    split at h
    · rename_i e
      simp [List.isEmpty_iff.1 e]
    · simp at h
  | cons b bs ih =>
    simp only [findBytes?] at h
    split at h
    · rename_i e
      obtain rfl := Option.some.inj h
      simpa using e
    · obtain ⟨k, hk, rfl⟩ := Option.map_eq_some_iff.1 h
      simpa using ih hk

theorem lengthThroughLast_le (p : UInt8 → Bool) (bs : List UInt8) :
    lengthThroughLast p bs ≤ bs.length := by
  have h := (List.dropWhile_suffix (fun b => !p b) (l := bs.reverse)).length_le
  simpa [lengthThroughLast] using h

end RpcBindings.Text
