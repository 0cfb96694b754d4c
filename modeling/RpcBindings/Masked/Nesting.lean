import RpcBindings.Delimiter
import RpcBindings.Masked.Basic

/-!
Delimiters in masked texts: partners, top-level positions, and splitting.

A position is at top level of a range when as many delimiters have been closed as opened since the
range began; a closer too many does not count.
-/

namespace RpcBindings

namespace Masked

/-- The nesting depth after one more byte. -/
def depthAfter (depth : Nat) (b : UInt8) : Nat :=
  if (Delimiter.ofOpener? b).isSome then depth + 1
  else if (Delimiter.ofCloser? b).isSome then depth - 1
  else depth

/-- How far into the bytes the closer stands that brings the depth of one kind of delimiter down
to nothing. -/
def closerOffset (d : Delimiter) : Nat → List UInt8 → Option Nat
  | _, [] => none
  | depth, b :: bs =>
    if b = d.opener.toUInt8 then (closerOffset d (depth + 1) bs).map (· + 1)
    else if b = d.closer.toUInt8 then
      if depth ≤ 1 then some 0 else (closerOffset d (depth - 1) bs).map (· + 1)
    else (closerOffset d depth bs).map (· + 1)

/-- The partner of the opener at an offset, counting delimiters of its kind only. -/
def closer? (m : Masked) (i : Nat) : Option Nat :=
  match m.bytes.drop i with
  | [] => none
  | b :: bs =>
    match Delimiter.ofOpener? b with
    | none => none
    | some d => (closerOffset d 1 bs).map (i + 1 + ·)

/-- The parentheses that follow an offset, across blanks. -/
def parensAfter? (m : Masked) (i : Nat) : Option Span :=
  match m.skipBlank? i with
  | none => none
  | some opened =>
    if m.hasChar opened '(' then (m.closer? opened).map fun closed => ⟨opened, closed⟩ else none

/-- How far into the bytes a target stands at top level. -/
def topLevelOffset (target : UInt8) : Nat → List UInt8 → Option Nat
  | _, [] => none
  | depth, b :: bs =>
    if depth = 0 && b = target then some 0
    else (topLevelOffset target (depthAfter depth b) bs).map (· + 1)

/-- The first place of a byte at top level between two offsets. -/
def findTopLevel? (m : Masked) (start stop : Nat) (target : Char) : Option Nat :=
  (topLevelOffset target.toUInt8 0 (m.byteSlice start stop)).map (start + ·)

/-- The pieces that end at a separator, and where the last piece begins. -/
def piecesFrom (sep : UInt8) : Nat → Nat → Nat → List UInt8 → List Span × Nat
  | _, start, _, [] => ([], start)
  | depth, start, i, b :: bs =>
    if depthAfter 1 b = 1 && b = sep && depth = 0 then
      let later := piecesFrom sep depth (i + 1) (i + 1) bs
      (⟨start, i⟩ :: later.1, later.2)
    else piecesFrom sep (depthAfter depth b) start (i + 1) bs

/-- Adds the last piece, unless it holds no code. -/
def withTail (m : Masked) (stop : Nat) (pieces : List Span × Nat) : List Span :=
  if m.isBlank pieces.2 stop then pieces.1 else pieces.1 ++ [⟨pieces.2, stop⟩]

/-- The pieces of a range between separators at top level. A blank last piece is dropped. -/
def splitTopLevel (m : Masked) (start stop : Nat) (sep : Char) : List Span :=
  m.withTail stop (piecesFrom sep.toUInt8 0 start start (m.byteSlice start stop))

/-- Whether a statement ends with a byte at a depth: a semicolon at top level, or a closing brace
that returns there. -/
def endsStatement (depth : Nat) (b : UInt8) : Bool :=
  (b = ';'.toUInt8 && depth = 0) || (b = '}'.toUInt8 && depth - 1 = 0)

/-- The statements that are ended, and where the last one begins. -/
def statementsFrom : Nat → Nat → Nat → List UInt8 → List Span × Nat
  | _, start, _, [] => ([], start)
  | depth, start, i, b :: bs =>
    if endsStatement depth b then
      let later := statementsFrom (depthAfter depth b) (i + 1) (i + 1) bs
      (⟨start, i + 1⟩ :: later.1, later.2)
    else statementsFrom (depthAfter depth b) start (i + 1) bs

/-- The statements of a declaration body, each with its end and with the comments before it. A
blank rest is dropped. -/
def splitStatements (m : Masked) (start stop : Nat) : List Span :=
  m.withTail stop (statementsFrom 0 start start (m.byteSlice start stop))

/-! ## Where searches end -/

theorem closerOffset_lt {d : Delimiter} {depth n : Nat} {bs : List UInt8}
    (h : closerOffset d depth bs = some n) : n < bs.length := by
  induction bs generalizing depth n with
  | nil => simp [closerOffset] at h
  | cons b bs ih =>
    simp only [closerOffset] at h
    split at h
    · obtain ⟨k, hk, rfl⟩ := Option.map_eq_some_iff.1 h
      have := ih hk; simp; omega
    · split at h
      · split at h
        · obtain rfl := Option.some.inj h; simp
        · obtain ⟨k, hk, rfl⟩ := Option.map_eq_some_iff.1 h
          have := ih hk; simp; omega
      · obtain ⟨k, hk, rfl⟩ := Option.map_eq_some_iff.1 h
        have := ih hk; simp; omega

/-- A closer stands after its opener, inside the text. -/
theorem lt_of_closer? {m : Masked} {i j : Nat} (h : m.closer? i = some j) : i < j ∧ j < m.size := by
  unfold closer? at h
  split at h
  · simp at h
  · rename_i b bs hbs
    split at h
    · simp at h
    · obtain ⟨k, hk, rfl⟩ := Option.map_eq_some_iff.1 h
      have hk := closerOffset_lt hk
      have hl := congrArg List.length hbs
      simp only [List.length_drop, List.length_cons] at hl
      unfold size
      omega

/-- What is found at top level does not stand before the start. -/
theorem le_of_findTopLevel? {m : Masked} {start stop j : Nat} {target : Char}
    (h : m.findTopLevel? start stop target = some j) : start ≤ j := by
  obtain ⟨k, -, rfl⟩ := Option.map_eq_some_iff.1 h
  omega

/-- What is not blank is found at or after the start. -/
theorem le_of_skipBlank? {m : Masked} {start j : Nat} (h : m.skipBlank? start = some j) :
    start ≤ j := by
  unfold skipBlank? at h
  split at h
  · simp at h
  · split at h
    · simp at h
    · obtain rfl := Option.some.inj h
      omega

end Masked

end RpcBindings
