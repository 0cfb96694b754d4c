/-!
Texts at the start or the end of other texts.
-/

namespace RpcBindings.Text

/-- What follows `p` when the text begins with it. -/
def stripPrefix? : List Char → List Char → Option (List Char)
  | [], cs => some cs
  | _ :: _, [] => none
  | p :: ps, c :: cs => if p = c then stripPrefix? ps cs else none

/-- What stands before `p` when the text ends with it. -/
def stripSuffix? (p cs : List Char) : Option (List Char) :=
  (stripPrefix? p.reverse cs.reverse).map List.reverse

/-- The text between double quotes. -/
def unquote? (cs : List Char) : Option (List Char) :=
  (stripPrefix? ['"'] cs).bind (stripSuffix? ['"'])

/-- What stands before and after the first occurrence of `c`. -/
def splitAtChar? (c : Char) : List Char → Option (List Char × List Char)
  | [] => none
  | d :: ds =>
    if d = c then some ([], ds) else (splitAtChar? c ds).map fun p => (d :: p.1, p.2)

/-- The pieces between the occurrences of `c`; there is always at least one. -/
def splitOn (c : Char) : List Char → List (List Char)
  | [] => [[]]
  | d :: ds =>
    if d = c then [] :: splitOn c ds
    else match splitOn c ds with
      | [] => [[d]]
      | piece :: pieces => (d :: piece) :: pieces

theorem stripPrefix?_append (p cs : List Char) : stripPrefix? p (p ++ cs) = some cs := by
  induction p with
  | nil => cases cs <;> rfl
  | cons c p ih => simp [stripPrefix?, ih]

theorem eq_append_of_stripPrefix? {p cs rest : List Char} (h : stripPrefix? p cs = some rest) :
    cs = p ++ rest := by
  induction p generalizing cs with
  | nil => cases cs <;> simp_all [stripPrefix?]
  | cons c p ih =>
    cases cs with
    | nil => simp [stripPrefix?] at h
    | cons d cs =>
      simp only [stripPrefix?] at h
      split at h
      · rename_i e; rw [ih h, e]; rfl
      · simp at h

/-- A prefix is found exactly in the texts that continue it. -/
theorem stripPrefix?_eq_some_iff {p cs rest : List Char} :
    stripPrefix? p cs = some rest ↔ cs = p ++ rest :=
  ⟨eq_append_of_stripPrefix?, fun h => h ▸ stripPrefix?_append p rest⟩

/-- A suffix is found exactly in the texts that it ends. -/
theorem stripSuffix?_eq_some_iff {p cs rest : List Char} :
    stripSuffix? p cs = some rest ↔ cs = rest ++ p := by
  simp only [stripSuffix?, Option.map_eq_some_iff, stripPrefix?_eq_some_iff]
  constructor
  · rintro ⟨a, h, rfl⟩
    rw [← List.reverse_reverse cs, h]; simp
  · intro h
    exact ⟨rest.reverse, by rw [h, List.reverse_append], by simp⟩

end RpcBindings.Text
