import Mathlib.Data.List.Chain
import Mathlib.Order.Bounds.Basic
import RpcBindings.Proofs.Text.Reindent

/-!
What is left of a text that is laid out anew.

Of the lines of a text all that are not blank are left, less what they share of their indentation and
the blanks at their ends, and of the blank lines between two of them one when there were any
(`blanksBetween`). What is left shares no indentation (`commonIndentation_of_tidy?`) and has no blank
line too many (`paragraphs_paragraphs`), so it stays as it is (`tidy?_tidy?`).
-/

namespace RpcBindings.Text

/-! ## Paragraphs -/

theorem squeeze_squeeze (gap : Bool) (ls : List (List Char)) :
    squeeze false (squeeze gap ls) = squeeze gap ls := by
  induction ls generalizing gap with
  | nil => rfl
  | cons l ls ih =>
    cases l with
    | nil => exact ih true
    | cons c l =>
      cases gap with
      | false => exact congrArg ((c :: l) :: ·) (ih false)
      | true => exact congrArg ([] :: (c :: l) :: ·) (ih false)

/-- No paragraph begins with an empty line. -/
theorem ne_nil_of_mem_head?_paragraphs (ls : List (List Char)) :
    ∀ l ∈ (paragraphs ls).head?, l ≠ [] := by
  induction ls with
  | nil => exact nofun
  | cons l ls ih =>
    cases l with
    | nil => exact ih
    | cons c l =>
      intro x hx
      obtain rfl := Option.some.inj hx
      exact List.cons_ne_nil c l

theorem paragraphs_of_head? {ls : List (List Char)} (h : ∀ l ∈ ls.head?, l ≠ []) :
    paragraphs ls = squeeze false ls := by
  cases ls with
  | nil => rfl
  | cons l ls =>
    unfold paragraphs
    rw [List.dropWhile_cons_of_neg (by simpa using h l rfl)]

theorem paragraphs_paragraphs (ls : List (List Char)) :
    paragraphs (paragraphs ls) = paragraphs ls := by
  rw [paragraphs_of_head? (ne_nil_of_mem_head?_paragraphs ls)]
  exact squeeze_squeeze false _

theorem squeeze_map {f : List Char → List Char} (hnil : f [] = []) {ls : List (List Char)}
    (hf : ∀ l ∈ ls, l ≠ [] → f l ≠ []) (gap : Bool) :
    squeeze gap (ls.map f) = (squeeze gap ls).map f := by
  induction ls generalizing gap with
  | nil => rfl
  | cons l ls ih =>
    have ih := ih fun x hx => hf x (List.mem_cons_of_mem l hx)
    rw [List.map_cons]
    by_cases hl : l = []
    · subst hl
      rw [hnil]
      exact ih true
    · have hempty : l.isEmpty = false := by simpa using hl
      have hempty' : (f l).isEmpty = false := by simpa using hf l List.mem_cons_self hl
      rw [squeeze, squeeze, hempty, hempty', if_neg Bool.false_ne_true, if_neg Bool.false_ne_true, ih]
      cases gap with
      | false => rfl
      | true => rw [if_pos rfl, if_pos rfl, List.map_cons, List.map_cons, hnil]

/-! ## Blank lines -/

/-- How many blank lines stand directly before each line that is not blank, after `n` blank ones. -/
def blanksBefore : Nat → List (List Char) → List Nat
  | _, [] => []
  | n, l :: ls => if allBlank l then blanksBefore (n + 1) ls else n :: blanksBefore 0 ls

/-- How many blank lines stand between each line that is not blank and the next such line. -/
def blanksBetween (ls : List (List Char)) : List Nat :=
  (blanksBefore 0 ls).tail

theorem blanksBefore_map {f : List Char → List Char} {ls : List (List Char)}
    (hf : ∀ l ∈ ls, allBlank (f l) = allBlank l) (n : Nat) :
    blanksBefore n (ls.map f) = blanksBefore n ls := by
  induction ls generalizing n with
  | nil => rfl
  | cons l ls ih =>
    have ih := ih fun x hx => hf x (List.mem_cons_of_mem l hx)
    rw [List.map_cons, blanksBefore, blanksBefore, hf l List.mem_cons_self, ih, ih]

theorem blanksBetween_map {f : List Char → List Char} {ls : List (List Char)}
    (hf : ∀ l ∈ ls, allBlank (f l) = allBlank l) : blanksBetween (ls.map f) = blanksBetween ls :=
  congrArg List.tail (blanksBefore_map hf 0)

/-- The first line that is not blank begins the count anew. -/
theorem tail_blanksBefore (n : Nat) (ls : List (List Char)) :
    (blanksBefore n ls).tail = blanksBetween ls := by
  unfold blanksBetween
  induction ls generalizing n with
  | nil => rfl
  | cons l ls ih =>
    rw [blanksBefore, blanksBefore]
    split
    · exact (ih (n + 1)).trans (ih (0 + 1)).symm
    · rfl

/-- Of the blank lines between two others one is left. -/
theorem blanksBefore_squeeze {ls : List (List Char)} (h : ∀ l ∈ ls, allBlank l = true → l = [])
    (n : Nat) :
    blanksBefore 0 (squeeze (decide (0 < n)) ls) = (blanksBefore n ls).map (min 1) := by
  induction ls generalizing n with
  | nil => rfl
  | cons l ls ih =>
    have ih := ih fun x hx => h x (List.mem_cons_of_mem l hx)
    cases hblank : allBlank l with
    | true =>
      obtain rfl := h l List.mem_cons_self hblank
      exact ih (n + 1)
    | false =>
      have hempty : l.isEmpty = false := by
        cases l with
        | nil => exact absurd hblank nofun
        | cons c l => rfl
      rw [squeeze, hempty, if_neg Bool.false_ne_true, blanksBefore, hblank,
        if_neg Bool.false_ne_true, List.map_cons, ← ih 0]
      cases n with
      | zero =>
        rw [if_neg (by decide), blanksBefore, hblank]
        rfl
      | succ n =>
        have hnil : allBlank [] = true := rfl
        rw [if_pos (by simp), blanksBefore, hnil, if_pos rfl, blanksBefore, hblank,
          Nat.min_eq_left (Nat.succ_pos n)]
        rfl

theorem blanksBetween_paragraphs {ls : List (List Char)} (h : ∀ l ∈ ls, allBlank l = true → l = []) :
    blanksBetween (paragraphs ls) = (blanksBetween ls).map (min 1) := by
  induction ls with
  | nil => rfl
  | cons l ls ih =>
    cases l with
    | nil =>
      rw [paragraphs_nil_cons, ih fun x hx => h x (List.mem_cons_of_mem _ hx)]
      exact congrArg (List.map (min 1)) (tail_blanksBefore 1 ls).symm
    | cons c l =>
      have hhead : ∀ x ∈ ((c :: l) :: ls).head?, x ≠ [] := by
        intro x hx
        obtain rfl := Option.some.inj hx
        exact List.cons_ne_nil c l
      rw [paragraphs_of_head? hhead]
      have hsqueeze := blanksBefore_squeeze h 0
      rw [decide_eq_false (Nat.lt_irrefl 0)] at hsqueeze
      unfold blanksBetween
      rw [hsqueeze, List.map_tail]

/-- No two blank lines are left in a row. -/
theorem isChain_squeeze {ls : List (List Char)} (h : ∀ l ∈ ls, allBlank l = true → l = [])
    (gap : Bool) :
    (squeeze gap ls).IsChain fun l l' => allBlank l = false ∨ allBlank l' = false := by
  induction ls generalizing gap with
  | nil => exact .nil
  | cons l ls ih =>
    have ih := ih fun x hx => h x (List.mem_cons_of_mem l hx)
    rw [squeeze]
    split
    · exact ih true
    · rename_i hempty
      have hblank : allBlank l = false := by
        refine Bool.eq_false_iff.2 fun hblank => hempty ?_
        rw [h l List.mem_cons_self hblank]
        rfl
      have hlater : (l :: squeeze false ls).IsChain fun l l' => allBlank l = false ∨ allBlank l' = false :=
        List.isChain_cons.2 ⟨fun _ _ => .inl hblank, ih false⟩
      split
      · exact List.isChain_cons.2 ⟨fun x hx => .inr (Option.some.inj hx ▸ hblank), hlater⟩
      · exact hlater

/-! ## Lines without blanks at their ends -/

theorem allBlank_trimEnd (l : List Char) : allBlank (trimEnd l) = allBlank l := by
  obtain ⟨tail, hl, htail⟩ := exists_trimEnd l
  rw [Bool.eq_iff_iff]
  conv => rhs; rw [hl, allBlank_append]
  exact ⟨fun h => ⟨h, htail⟩, fun h => h.1⟩

/-- A line is empty without the blanks at its end when it is blank. -/
theorem isEmpty_trimEnd (l : List Char) : (trimEnd l).isEmpty = allBlank l := by
  rw [Bool.eq_iff_iff, List.isEmpty_iff]
  refine ⟨fun h => ?_, trimEnd_of_allBlank⟩
  rw [← allBlank_trimEnd, h]
  rfl

theorem EndsInInk.trimEnd_eq {l : List Char} (h : EndsInInk l) : trimEnd l = l := by
  obtain ⟨tail, hl, htail⟩ := exists_trimEnd l
  rw [hl] at h
  rw [eq_nil_of_endsInInk htail h.of_suffix, List.append_nil] at hl
  exact hl.symm

/-- The blanks at the end of a line that is not blank are no part of its indentation. -/
theorem indentation_trimEnd {l : List Char} (h : allBlank l = false) :
    indentation (trimEnd l) = indentation l := by
  obtain ⟨tail, hl, -⟩ := exists_trimEnd l
  have hink : ((trimEnd l).takeWhile isBlank).length ≠ (trimEnd l).length := by
    intro hlen
    have hall : allBlank ((trimEnd l).takeWhile isBlank) = true := List.all_takeWhile
    rw [(List.takeWhile_prefix isBlank).eq_of_length hlen, allBlank_trimEnd, h] at hall
    exact Bool.false_ne_true hall
  unfold indentation
  conv => rhs; rw [hl, List.takeWhile_append, if_neg hink]

/-- Without its whole indentation a line has none. -/
theorem Indented.indentation_dropBytes {n : Nat} {l : List Char} (h : Indented n l)
    (hn : indentation l = n) : indentation (dropBytes n l) = 0 := by
  obtain ⟨x, y, rfl, hx, rfl⟩ := h
  rw [dropBytes_append]
  unfold indentation at hn ⊢
  rw [List.takeWhile_append_of_pos fun c hc => List.all_eq_true.1 hx c hc, byteLength_append] at hn
  omega

/-- The common indentation of lines is the indentation of one of them. -/
theorem exists_indentation_eq {ls : List (List Char)} {l : List Char} (hl : l ∈ ls) (hne : l ≠ []) :
    ∃ l ∈ ls, l ≠ [] ∧ indentation l = commonIndentation ls := by
  have hmem : indentation l ∈ (ls.filter (!·.isEmpty)).map indentation :=
    List.mem_map_of_mem (List.mem_filter.2 ⟨hl, by simpa using hne⟩)
  obtain ⟨n, hn⟩ : ∃ n, ((ls.filter (!·.isEmpty)).map indentation).min? = some n :=
    Option.ne_none_iff_exists'.1 fun hnone => by
      rw [List.min?_eq_none_iff.1 hnone] at hmem
      exact List.not_mem_nil hmem
  obtain ⟨l', hl', hindent⟩ := List.mem_map.1 (List.min?_eq_some_iff.1 hn).1
  obtain ⟨hmem', hempty⟩ := List.mem_filter.1 hl'
  refine ⟨l', hmem', by simpa using hempty, ?_⟩
  unfold commonIndentation
  rw [hn, hindent]
  rfl

/-! ## What is left -/

/-- The lines of a text that are not blank. -/
def inkLines (cs : List Char) : List (List Char) :=
  (lines cs).filter (!allBlank ·)

/-- A text is what is left of another one whose lines share an indentation of `n` bytes. -/
structure IsTidied (n : Nat) (cs tidied : List Char) : Prop where
  least : ∀ l ∈ inkLines cs, IsLeast {k | ∃ l ∈ inkLines cs, indentation l = k} n
  kept : (inkLines cs).mapM (fun l => dropBytes? n (trimEnd l)) = some (inkLines tidied)
  joined : tidied = joinLines (lines tidied)
  first : ∀ l ∈ (lines tidied).head?, allBlank l = false
  last : ∀ l ∈ (lines tidied).getLast?, allBlank l = false
  single : (lines tidied).IsChain fun l l' => allBlank l = false ∨ allBlank l' = false
  between : blanksBetween (lines tidied) = (blanksBetween (lines cs)).map (min 1)

variable {cs tidied l : List Char}

theorem eq_nil_of_mem_map_trimEnd (h : l ∈ (lines cs).map trimEnd) (hblank : allBlank l = true) :
    l = [] := by
  obtain ⟨l', -, rfl⟩ := List.mem_map.1 h
  exact eq_nil_of_endsInInk hblank (endsInInk_trimEnd l')

theorem endsInInk_of_tidy? (h : tidy? cs = some tidied) (hl : l ∈ lines tidied) : EndsInInk l := by
  rw [lines_of_tidy? h] at hl
  obtain ⟨l', hl', rfl⟩ := List.mem_map.1 hl
  exact (dropBytes_of_mem_paragraphs h hl').1

theorem paragraphs_lines_of_tidy? (h : tidy? cs = some tidied) :
    paragraphs (lines tidied) = lines tidied := by
  have hf {l : List Char} (hl : l ∈ paragraphs ((lines cs).map trimEnd)) :=
    (dropBytes_of_mem_paragraphs h hl).2.2.1
  have hhead : ∀ l ∈ (lines tidied).head?, l ≠ [] := by
    intro l hl
    rw [lines_of_tidy? h, List.head?_map] at hl
    obtain ⟨l', hl', rfl⟩ := Option.map_eq_some_iff.1 hl
    exact hf (List.mem_of_head? hl') (ne_nil_of_mem_head?_paragraphs _ l' hl')
  have hparagraphs := paragraphs_paragraphs ((lines cs).map trimEnd)
  rw [paragraphs_of_head? (ne_nil_of_mem_head?_paragraphs _)] at hparagraphs
  rw [paragraphs_of_head? hhead, lines_of_tidy? h, squeeze_map (dropBytes_nil _) fun l hl => hf hl,
    hparagraphs]

/-- What is left shares no indentation. -/
theorem commonIndentation_of_tidy? (h : tidy? cs = some tidied) :
    commonIndentation (lines tidied) = 0 := by
  rw [lines_of_tidy? h]
  cases hhead : (paragraphs ((lines cs).map trimEnd)).head? with
  | none =>
    rw [List.head?_eq_none_iff.1 hhead]
    rfl
  | some l =>
    obtain ⟨l', hl', hne, hindent⟩ :=
      exists_indentation_eq (List.mem_of_head? hhead) (ne_nil_of_mem_head?_paragraphs _ l hhead)
    rw [commonIndentation_paragraphs] at hindent
    obtain ⟨hink, -, hindented⟩ := mem_paragraphs_of_tidy? h hl' hne
    have hempty : (dropBytes (sharedIndent cs) l').isEmpty = false := by
      simpa using hindented.dropBytes_ne_nil hink hne
    have hle := commonIndentation_le (List.mem_map_of_mem (f := dropBytes (sharedIndent cs)) hl') hempty
    rw [hindented.indentation_dropBytes hindent] at hle
    exact Nat.le_zero.1 hle

/-- What is left of a text stays as it is. -/
theorem tidy?_tidy? (h : tidy? cs = some tidied) : tidy? tidied = some tidied := by
  have htrim : (lines tidied).map trimEnd = lines tidied := by
    refine (List.map_congr_left fun l hl => ?_).trans (List.map_id _)
    exact (endsInInk_of_tidy? h hl).trimEnd_eq
  have hdedent (l : List Char) : dedentLine? 0 l = some l := by
    cases l <;> rfl
  have hall : (lines tidied).mapM (dedentLine? 0) = some (lines tidied) := by
    rw [funext hdedent]
    exact List.mapM_pure.trans (congrArg some (List.map_id _))
  have hjoined : joinLines (lines tidied) = tidied := by
    rw [lines_of_tidy? h]
    exact (tidy?_eq_some h).symm
  unfold tidy?
  simp only [htrim, paragraphs_lines_of_tidy? h, commonIndentation_of_tidy? h, hall, Option.map_some,
    hjoined]

/-- What all lines of a text that are not blank share is the smallest indentation among them. -/
theorem isLeast_sharedIndent (hl : l ∈ inkLines cs) :
    IsLeast {k | ∃ l ∈ inkLines cs, indentation l = k} (sharedIndent cs) := by
  have hmem {l : List Char} (hl : l ∈ inkLines cs) :
      trimEnd l ∈ (lines cs).map trimEnd ∧ trimEnd l ≠ [] ∧ indentation (trimEnd l) = indentation l := by
    obtain ⟨hline, hblank⟩ := List.mem_filter.1 hl
    have hblank : allBlank l = false := by simpa using hblank
    exact ⟨List.mem_map_of_mem hline, trimEnd_ne_nil hblank, indentation_trimEnd hblank⟩
  constructor
  · obtain ⟨l', hl', hne, hindent⟩ := exists_indentation_eq (hmem hl).1 (hmem hl).2.1
    obtain ⟨l₀, hl₀, rfl⟩ := List.mem_map.1 hl'
    have hblank : allBlank l₀ = false :=
      Bool.eq_false_iff.2 fun hall => hne (trimEnd_of_allBlank hall)
    exact ⟨l₀, List.mem_filter.2 ⟨hl₀, by rw [hblank]; rfl⟩, (indentation_trimEnd hblank).symm.trans hindent⟩
  · rintro k ⟨l', hl', rfl⟩
    obtain ⟨hline, hne, hindent⟩ := hmem hl'
    rw [← hindent]
    exact commonIndentation_le hline (by simpa using hne)

theorem mapM_eq_some_map {α β : Type} {f : α → Option β} {g : α → β} {as : List α}
    (h : ∀ a ∈ as, f a = some (g a)) : as.mapM f = some (as.map g) := by
  induction as with
  | nil => rfl
  | cons a as ih =>
    rw [List.mapM_cons, h a List.mem_cons_self, ih fun x hx => h x (List.mem_cons_of_mem a hx)]
    rfl

/-- A paragraph's line that loses its indentation is blank only when it was empty. -/
theorem allBlank_dropBytes_of_tidy? (h : tidy? cs = some tidied)
    (hl : l ∈ paragraphs ((lines cs).map trimEnd)) :
    allBlank (dropBytes (sharedIndent cs) l) = l.isEmpty := by
  obtain ⟨hink, -, hne, -⟩ := dropBytes_of_mem_paragraphs h hl
  rw [Bool.eq_iff_iff, List.isEmpty_iff]
  refine ⟨fun hall => ?_, fun hnil => ?_⟩
  · exact Classical.byContradiction fun hl => hne hl (eq_nil_of_endsInInk hall hink)
  · rw [hnil, dropBytes_nil]
    rfl

/-- The lines that are not blank are left, in order, without what they share. -/
theorem inkLines_of_tidy? (h : tidy? cs = some tidied) :
    inkLines tidied = (inkLines cs).map fun l => dropBytes (sharedIndent cs) (trimEnd l) := by
  have hkept : ∀ l ∈ paragraphs ((lines cs).map trimEnd),
      ((!allBlank ·) ∘ dropBytes (sharedIndent cs)) l = !l.isEmpty :=
    fun l hl => congrArg (!·) (allBlank_dropBytes_of_tidy? h hl)
  have hlines : ∀ l ∈ lines cs, ((!List.isEmpty ·) ∘ trimEnd) l = !allBlank l :=
    fun l _ => congrArg (!·) (isEmpty_trimEnd l)
  unfold inkLines
  rw [lines_of_tidy? h, List.filter_map, List.filter_congr hkept, filter_paragraphs,
    List.filter_map, List.map_map, List.filter_congr hlines]
  rfl

/-- Each line that is not blank can be cut where the shared indentation ends. -/
theorem mapM_inkLines_of_tidy? (h : tidy? cs = some tidied) :
    (inkLines cs).mapM (fun l => dropBytes? (sharedIndent cs) (trimEnd l)) = some (inkLines tidied) := by
  rw [inkLines_of_tidy? h]
  refine mapM_eq_some_map fun l hl => ?_
  obtain ⟨hline, hblank⟩ := List.mem_filter.1 hl
  have hne : trimEnd l ≠ [] := trimEnd_ne_nil (by simpa using hblank)
  have hmem := (mem_paragraphs_iff (by simpa using hne)).2 (List.mem_map_of_mem (f := trimEnd) hline)
  obtain ⟨x, y, heq, -, hx⟩ := (mem_paragraphs_of_tidy? h hmem hne).2.2
  rw [heq, ← hx, dropBytes?_append, dropBytes_append]

theorem isTidied_of_tidy? (h : tidy? cs = some tidied) : IsTidied (sharedIndent cs) cs tidied := by
  have hnil {l : List Char} (hl : l ∈ lines tidied) (hblank : allBlank l = true) : l = [] :=
    eq_nil_of_endsInInk hblank (endsInInk_of_tidy? h hl)
  have hink {l : List Char} (hl : l ∈ lines tidied) (hne : l ≠ []) : allBlank l = false :=
    Bool.eq_false_iff.2 fun hblank => hne (hnil hl hblank)
  have hkept := paragraphs_lines_of_tidy? h
  have hhead := ne_nil_of_mem_head?_paragraphs (lines tidied)
  have hsqueeze : squeeze false (lines tidied) = lines tidied := by
    rw [hkept] at hhead
    rw [← paragraphs_of_head? hhead, hkept]
  refine ⟨fun l => isLeast_sharedIndent, mapM_inkLines_of_tidy? h, ?_, fun l hl => ?_, fun l hl => ?_,
    ?_, ?_⟩
  · rw [lines_of_tidy? h]
    exact tidy?_eq_some h
  · exact hink (List.mem_of_head? hl) (hhead l (hkept.symm ▸ hl))
  · refine hink (List.mem_of_getLast? hl) ?_
    rw [← hsqueeze] at hl
    exact ne_nil_of_mem_getLast?_squeeze false _ l hl
  · rw [← hsqueeze]
    exact isChain_squeeze (fun l => hnil) false
  · have hblank : ∀ l ∈ paragraphs ((lines cs).map trimEnd),
        allBlank (dropBytes (sharedIndent cs) l) = allBlank l := by
      intro l hl
      rw [allBlank_dropBytes_of_tidy? h hl]
      obtain rfl | hmem := mem_paragraphs hl
      · rfl
      · obtain ⟨l', -, rfl⟩ := List.mem_map.1 hmem
        rw [isEmpty_trimEnd, allBlank_trimEnd]
    rw [lines_of_tidy? h, blanksBetween_map hblank,
      blanksBetween_paragraphs fun l => eq_nil_of_mem_map_trimEnd,
      blanksBetween_map fun l _ => allBlank_trimEnd l]

/-- A text whose lines are indented by blanks of one byte can be laid out anew. What is left stays as it
is, and only the layout has changed: the blanks at the ends of lines, the indentation that the lines
share, and the number of blank lines between two others. -/
theorem exists_isTidied
    (h : ∀ l ∈ lines cs, allBlank l = false → ∀ c ∈ l.takeWhile isBlank, c.utf8Size = 1) :
    ∃ n tidied, tidy? cs = some tidied ∧ tidy? tidied = some tidied ∧ IsTidied n cs tidied := by
  obtain ⟨tidied, htidied⟩ := exists_tidy?_of_narrow h
  exact ⟨sharedIndent cs, tidied, htidied, tidy?_tidy? htidied, isTidied_of_tidy? htidied⟩

/-- Lines that end in both ways, blank lines that are not empty, and an indentation of its own. -/
def unevenText : List Char :=
  "\r\n \t\n\t\ta() \r\n\r\n\u00a0\n\t\t\tb()\n\t\tc()\n\n".toList

theorem exists_isTidied_unevenText :
    (∀ l ∈ lines unevenText, allBlank l = false → ∀ c ∈ l.takeWhile isBlank, c.utf8Size = 1) ∧
      tidy? unevenText = some "a()\n\n\tb()\nc()".toList ∧
      IsTidied 2 unevenText "a()\n\n\tb()\nc()".toList := by
  have hnarrow : ∀ l ∈ lines unevenText, allBlank l = false →
      ∀ c ∈ l.takeWhile isBlank, c.utf8Size = 1 := by decide +kernel
  have htidied : tidy? unevenText = some "a()\n\n\tb()\nc()".toList := by decide +kernel
  obtain ⟨n, tidied, h, -, hleft⟩ := exists_isTidied hnarrow
  obtain rfl : tidied = "a()\n\n\tb()\nc()".toList := Option.some.inj (h.symm.trans htidied)
  have hline : "\t\tc()".toList ∈ inkLines unevenText := by decide +kernel
  obtain rfl : n = 2 := by
    have hshared : sharedIndent unevenText = 2 := by decide +kernel
    exact (hleft.least _ hline).unique (hshared ▸ isLeast_sharedIndent hline)
  exact ⟨hnarrow, htidied, hleft⟩

end RpcBindings.Text
