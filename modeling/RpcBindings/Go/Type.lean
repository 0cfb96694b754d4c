import RpcBindings.Text.Blank

/-!
Go types as far as the generator looks into them: pointers, slices and names.
-/

namespace RpcBindings

/-- A Go type. Everything but a leading `*` or `[]` is a name, `map[string]int` too. -/
inductive GoType where
  | named (name : String)
  | pointer (elem : GoType)
  | slice (elem : GoType)
  deriving DecidableEq, Repr, Inhabited

namespace GoType

/-- The Go text of a type. -/
def text : GoType → String
  | named name => name
  | pointer elem => "*" ++ elem.text
  | slice elem => "[]" ++ elem.text

/-- Reads a type from text with no blank at its end. Blanks may stand around each marker. -/
def ofChars : List Char → GoType
  | [] => named ""
  | c :: cs =>
    if Text.isBlank c then ofChars cs
    else if c = '*' then pointer (ofChars cs)
    else match cs with
      | [] => named (.ofList [c])
      | d :: rest => if c = '[' && d = ']' then slice (ofChars rest) else named (.ofList (c :: cs))

/-- Reads Go type text: leading `*` and `[]` are markers, the rest is a name. -/
def ofText (text : String) : GoType :=
  ofChars (Text.trimEnd text.toList)

/-- Whether a value of the type refers to its content already. -/
def isIndirect : GoType → Bool
  | named _ => false
  | pointer _ => true
  | slice _ => true

/-- One level of indirection, unless the type has one. -/
def indirect (t : GoType) : GoType :=
  if t.isIndirect then t else pointer t

/-- The name under all markers. -/
def core : GoType → String
  | named name => name
  | pointer elem => elem.core
  | slice elem => elem.core

theorem isIndirect_indirect (t : GoType) : t.indirect.isIndirect = true := by
  cases t <;> rfl

theorem indirect_indirect (t : GoType) : t.indirect.indirect = t.indirect := by
  cases t <;> rfl

/-- What is read off a text: nothing, its rest behind a blank or a marker, or a name. -/
theorem ofChars_cases (cs : List Char) :
    cs = [] ∧ ofChars cs = named "" ∨
    (∃ c rest, cs = c :: rest ∧ Text.isBlank c = true ∧ ofChars cs = ofChars rest) ∨
    (∃ rest, cs = '*' :: rest ∧ ofChars cs = pointer (ofChars rest)) ∨
    (∃ rest, cs = '[' :: ']' :: rest ∧ ofChars cs = slice (ofChars rest)) ∨
    ofChars cs = named (.ofList cs) := by
  cases cs with
  | nil => exact .inl ⟨rfl, by rw [ofChars.eq_def]⟩
  | cons c cs =>
    have hcons : ofChars (c :: cs) =
        if Text.isBlank c then ofChars cs
        else if c = '*' then pointer (ofChars cs)
        else match cs with
          | [] => named (.ofList [c])
          | d :: rest =>
            if c = '[' && d = ']' then slice (ofChars rest) else named (.ofList (c :: cs)) := by
      rw [ofChars.eq_def]
    rw [hcons]
    by_cases hblank : Text.isBlank c = true
    · exact .inr (.inl ⟨c, cs, rfl, hblank, if_pos hblank⟩)
    · rw [if_neg hblank]
      by_cases hstar : c = '*'
      · subst hstar
        exact .inr (.inr (.inl ⟨cs, rfl, if_pos rfl⟩))
      · rw [if_neg hstar]
        cases cs with
        | nil => exact .inr (.inr (.inr (.inr rfl)))
        | cons d rest =>
          dsimp only
          split
          · rename_i h
            rw [Bool.and_eq_true, decide_eq_true_eq, decide_eq_true_eq] at h
            obtain ⟨rfl, rfl⟩ := h
            exact .inr (.inr (.inr (.inl ⟨rest, rfl, rfl⟩)))
          · exact .inr (.inr (.inr (.inr rfl)))

end GoType

end RpcBindings
