import RpcBindings.Proofs.Text.Content

/-!
Texts that differ in their layout only.

Laying a text out anew exchanges the blanks around its line feeds for other blanks around line feeds.
Main statement: a text differs in nothing else from the lines that hold something in it
(`relaid_sheet`), so texts with the same of these differ in nothing else from each other.
-/

namespace RpcBindings.Text

/-- The second text is the first one with other blanks around its line feeds. -/
inductive Relaid : List Char → List Char → Prop
  | nil : Relaid [] []
  | char (c : Char) {a b : List Char} (rest : Relaid a b) : Relaid (c :: a) (c :: b)
  | gap {g g' a b : List Char} (blank : allBlank g = true) (blank' : allBlank g' = true)
      (newline : '\n' ∈ g) (newline' : '\n' ∈ g') (rest : Relaid a b) : Relaid (g ++ a) (g' ++ b)

namespace Relaid

variable {a b : List Char}

theorem refl (a : List Char) : Relaid a a := by
  induction a with
  | nil => exact .nil
  | cons c a ih => exact .char c ih

theorem symm (h : Relaid a b) : Relaid b a := by
  induction h with
  | nil => exact .nil
  | char c _ ih => exact .char c ih
  | gap hblank hblank' hline hline' _ ih => exact .gap hblank' hblank hline' hline ih

theorem append_left (h : Relaid a b) (x : List Char) : Relaid (x ++ a) (x ++ b) := by
  induction x with
  | nil => exact h
  | cons c x ih => exact .char c ih

/-- Blanks before a line feed do not count. -/
theorem blank_append {g : List Char} (hg : allBlank g = true) (h : Relaid a b)
    (ha : a.head? = some '\n') : Relaid (g ++ a) b := by
  cases h with
  | nil => exact absurd ha (by simp)
  | @char c a b rest =>
    obtain rfl : c = '\n' := Option.some.inj ha
    have := @gap (g ++ ['\n']) ['\n'] _ _ (allBlank_append.2 ⟨hg, by decide⟩) (by decide)
      (by simp) (by simp) rest
    rwa [List.append_assoc] at this
  | gap hblank hblank' hline hline' rest =>
    rw [← List.append_assoc]
    exact gap (allBlank_append.2 ⟨hg, hblank⟩) hblank' (List.mem_append_right g hline) hline' rest

theorem nil_iff (h : Relaid a b) : a = [] ↔ b = [] := by
  cases h with
  | nil => exact Iff.rfl
  | char c _ => simp
  | gap _ _ hline hline' _ =>
    have hne {g rest : List Char} (h : '\n' ∈ g) : g ++ rest ≠ [] := by
      rintro heq
      rw [(List.append_eq_nil_iff.1 heq).1] at h
      exact absurd h List.not_mem_nil
    exact ⟨fun h => absurd h (hne hline), fun h => absurd h (hne hline')⟩

end Relaid

/-! ## Sheets -/

/-- Lines below one another, with line feeds around each. -/
def sheet (ls : List (List Char)) : List Char :=
  ls.flatMap ('\n' :: ·) ++ ['\n']

theorem sheet_cons (l : List Char) (ls : List (List Char)) :
    sheet (l :: ls) = '\n' :: (l ++ sheet ls) := by
  unfold sheet
  simp

/-- A text between line feeds differs in its layout only from the lines that hold something. -/
theorem relaid_sheet (cs : List Char) : Relaid ('\n' :: (cs ++ ['\n'])) (sheet (content cs)) := by
  -- a line before what is laid out already
  have hline (a : List Char) (ha : '\n' ∉ a) (rest : List Char) (ls : List (List Char))
      (hrest : rest.head? = some '\n') (h : Relaid rest (sheet ls)) :
      Relaid ('\n' :: (a ++ rest)) (sheet (content a ++ ls)) := by
    obtain ⟨head, tail, heq, hhead, htail⟩ := exists_trim a
    have hspace {b : List Char} (hb : allBlank b = true) : allBlank ('\n' :: b) = true := by
      show (isBlank '\n' && allBlank b) = true
      rw [hb]
      rfl
    rcases content_line_cases ha with ⟨hnil, hcontent⟩ | hcontent
    · rw [hnil, List.nil_append] at heq
      have hblank : allBlank ('\n' :: a) = true :=
        hspace (heq ▸ allBlank_append.2 ⟨hhead, htail⟩)
      rw [hcontent]
      exact h.blank_append hblank hrest
    · have hgap := @Relaid.gap ('\n' :: head) ['\n'] _ _ (hspace hhead) (by decide)
        (by simp) (by simp) ((h.blank_append htail hrest).append_left (trim a))
      rw [hcontent, List.singleton_append, sheet_cons]
      have hsplit : '\n' :: (a ++ rest) = '\n' :: head ++ (trim a ++ (tail ++ rest)) := by
        conv => lhs; rw [heq]
        simp
      rw [hsplit]
      exact hgap
  induction cs using lines_induction with
  | line a ha =>
    have := hline a ha ['\n'] [] rfl (Relaid.refl _)
    rwa [List.append_nil] at this
  | more a b ha ih =>
    rw [content_newline, List.append_assoc, List.cons_append]
    exact hline a ha _ _ rfl ih

end RpcBindings.Text
