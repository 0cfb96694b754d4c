import RpcBindings.Proofs.Text.Blank
import RpcBindings.Proofs.Text.Bytes
import RpcBindings.Text.Layout

/-!
Laying out text anew.

Main statements: empty lines at the ends of a text do not count (`tidy?_newline_cons`,
`tidy?_append_newline`), and a text cannot be laid out exactly when the indentation that its lines share
ends inside a blank of one of them (`tidy?_eq_none_iff`). With blanks of one byte it can always be laid
out (`exists_tidy?`).
-/

namespace RpcBindings.Text

/-! ## Lines -/

theorem not_mem_endLine {run : List Char} (h : '\n' ∉ run) : '\n' ∉ endLine run := by
  unfold endLine
  split
  · rename_i run
    rw [List.mem_cons, not_or] at h
    rw [List.mem_reverse]
    exact h.2
  · rwa [List.mem_reverse]

theorem not_mem_linesAux {run cs l : List Char} (hrun : '\n' ∉ run) (h : l ∈ linesAux run cs) :
    '\n' ∉ l := by
  induction cs generalizing run with
  | nil =>
    rw [linesAux] at h
    split at h
    · exact absurd h List.not_mem_nil
    · rw [List.mem_singleton.1 h, List.mem_reverse]
      exact hrun
  | cons c cs ih =>
    rw [linesAux] at h
    split at h
    · rcases List.mem_cons.1 h with rfl | h
      · exact not_mem_endLine hrun
      · exact ih List.not_mem_nil h
    · rename_i hc
      refine ih (fun hmem => ?_) h
      rcases List.mem_cons.1 hmem with heq | hmem
      · exact hc heq.symm
      · exact hrun hmem

/-- A line holds no line feed. -/
theorem not_mem_lines {cs l : List Char} (h : l ∈ lines cs) : '\n' ∉ l :=
  not_mem_linesAux List.not_mem_nil h

theorem joinLines_append_newline {l : List Char} {ls : List (List Char)} :
    joinLines (l :: ls) ++ ['\n'] = (l :: ls).flatMap (· ++ ['\n']) := by
  induction ls generalizing l with
  | nil => simp [joinLines]
  | cons l' ls ih =>
    rw [joinLines, List.flatMap_cons, List.append_assoc, List.cons_append, ih]
    · simp
    · exact fun h => absurd h (List.cons_ne_nil _ _)

/-! ## Empty lines at the ends -/

theorem paragraphs_nil_cons (ls : List (List Char)) : paragraphs ([] :: ls) = paragraphs ls := rfl

theorem squeeze_append_nil (gap : Bool) (ls : List (List Char)) :
    squeeze gap (ls ++ [[]]) = squeeze gap ls := by
  induction ls generalizing gap with
  | nil => rfl
  | cons l ls ih =>
    rw [List.cons_append, squeeze, squeeze, ih, ih]

theorem paragraphs_append_nil (ls : List (List Char)) :
    paragraphs (ls ++ [[]]) = paragraphs ls := by
  induction ls with
  | nil => rfl
  | cons l ls ih =>
    cases l with
    | nil =>
      rw [List.cons_append, paragraphs_nil_cons, paragraphs_nil_cons, ih]
    | cons c l =>
      show squeeze false ((c :: l) :: ls ++ [[]]) = squeeze false ((c :: l) :: ls)
      exact squeeze_append_nil false _

/-- A carriage return before a line feed is a blank at the end of its line. -/
theorem trimEnd_endLine (run : List Char) : trimEnd (endLine run) = trimEnd run.reverse := by
  unfold endLine
  split
  · rename_i run
    unfold trimEnd
    rw [List.reverse_reverse, List.reverse_reverse, List.dropWhile_cons_of_pos (by decide)]
  · rfl

/-- A line feed at the end of a text adds at most an empty line. -/
theorem linesAux_append_newline (run cs : List Char) :
    (linesAux run (cs ++ ['\n'])).map trimEnd = (linesAux run cs).map trimEnd ∨
      (linesAux run (cs ++ ['\n'])).map trimEnd = (linesAux run cs).map trimEnd ++ [[]] := by
  induction cs generalizing run with
  | nil =>
    have hlast : (linesAux run ([] ++ ['\n'])).map trimEnd = [trimEnd run.reverse] := by
      show [trimEnd (endLine run)] = _
      rw [trimEnd_endLine]
    rw [hlast, linesAux]
    cases run with
    | nil => exact .inr rfl
    | cons c run => exact .inl rfl
  | cons c cs ih =>
    rw [List.cons_append, linesAux, linesAux]
    split
    · rcases ih [] with h | h
      · exact .inl (by rw [List.map_cons, List.map_cons, h])
      · exact .inr (by rw [List.map_cons, List.map_cons, h, List.cons_append])
    · exact ih (c :: run)

theorem tidy?_newline_cons (cs : List Char) : tidy? ('\n' :: cs) = tidy? cs := rfl

theorem tidy?_append_newline (cs : List Char) : tidy? (cs ++ ['\n']) = tidy? cs := by
  have hlines : paragraphs ((lines (cs ++ ['\n'])).map trimEnd) =
      paragraphs ((lines cs).map trimEnd) := by
    rcases linesAux_append_newline [] cs with h | h
    · exact congrArg paragraphs h
    · exact (congrArg paragraphs h).trans (paragraphs_append_nil _)
  unfold tidy?
  rw [hlines]

/-! ## Indentation -/

theorem commonIndentation_le {ls : List (List Char)} {l : List Char} (hl : l ∈ ls)
    (hne : l.isEmpty = false) : commonIndentation ls ≤ indentation l := by
  have hmem : indentation l ∈ (ls.filter (!·.isEmpty)).map indentation :=
    List.mem_map_of_mem (List.mem_filter.2 ⟨hl, by rw [hne]; rfl⟩)
  unfold commonIndentation
  cases hmin : ((ls.filter (!·.isEmpty)).map indentation).min? with
  | none => exact Nat.zero_le _
  | some n => exact (List.min?_eq_some_iff.1 hmin).2 _ hmem

/-- A text cannot be cut exactly inside its characters. -/
theorem dropBytes?_eq_none_iff {n : Nat} {cs : List Char} (hn : n ≤ byteLength cs) :
    dropBytes? n cs = none ↔
      ∃ a c b, cs = a ++ c :: b ∧ byteLength a < n ∧ n < byteLength a + c.utf8Size := by
  constructor
  · intro h
    induction cs generalizing n with
    | nil =>
      obtain rfl : n = 0 := Nat.le_zero.1 hn
      exact absurd h (by simp [dropBytes?])
    | cons c cs ih =>
      cases n with
      | zero => exact absurd h (by simp [dropBytes?])
      | succ n =>
        rw [byteLength_cons] at hn
        rw [dropBytes?] at h
        split at h
        · obtain ⟨a, d, b, rfl, hlt, hgt⟩ := ih (by omega) h
          refine ⟨c :: a, d, b, rfl, ?_, ?_⟩ <;> rw [byteLength_cons] <;> omega
        · exact ⟨[], c, cs, rfl, Nat.succ_pos n, by rw [byteLength_nil]; omega⟩
  · rintro ⟨a, c, b, hcs, hlt, hgt⟩
    refine Option.eq_none_iff_forall_not_mem.2 fun rest hrest => ?_
    obtain ⟨a', hcs', rfl⟩ := dropBytes?_eq_some_iff.1 hrest
    obtain ⟨mid, rfl, hmid, -⟩ := exists_split_of_le hcs hcs' (Nat.le_of_lt hlt)
    rw [byteLength_append] at hlt hgt
    cases mid with
    | nil => exact absurd hlt (Nat.lt_irrefl _)
    | cons d mid =>
      obtain ⟨rfl, -⟩ := List.cons.inj hmid
      rw [byteLength_cons] at hgt
      omega

/-- The offset falls inside a blank of the indentation. -/
def SplitsBlank (n : Nat) (line : List Char) : Prop :=
  ∃ a c b, line = a ++ c :: b ∧ allBlank (a ++ [c]) = true ∧ byteLength a < n ∧
    n < byteLength a + c.utf8Size

/-- A line cannot lose a part of its indentation that ends inside a blank. -/
theorem dedentLine?_eq_none_iff {n : Nat} {line : List Char}
    (hn : line.isEmpty = false → n ≤ indentation line) :
    dedentLine? n line = none ↔ SplitsBlank n line := by
  unfold dedentLine?
  split
  · rename_i hempty
    refine ⟨fun h => absurd h (by simp), fun ⟨a, c, b, hline, _⟩ => ?_⟩
    rw [List.isEmpty_iff.1 hempty] at hline
    exact absurd hline.symm (by simp)
  · rename_i hempty
    have hle := hn (Bool.eq_false_iff.2 hempty)
    unfold indentation at hle
    have hline := (List.takeWhile_append_dropWhile (p := isBlank) (l := line)).symm
    have hsize : n ≤ byteLength line := by
      rw [hline, byteLength_append]
      exact Nat.le_trans hle (Nat.le_add_right _ _)
    rw [dropBytes?_eq_none_iff hsize]
    refine exists_congr fun a => exists_congr fun c => exists_congr fun b => ?_
    refine and_congr_right fun hsplit => (and_iff_right_of_imp fun ⟨hlt, _⟩ => ?_).symm
    -- the character begins before the indentation ends
    obtain ⟨mid, hmid, hrest, -⟩ := exists_split_of_le hsplit hline (by omega)
    have hall : allBlank (line.takeWhile isBlank) = true := List.all_takeWhile
    cases mid with
    | nil =>
      rw [hmid, List.append_nil] at hle
      omega
    | cons d mid =>
      obtain ⟨rfl, -⟩ := List.cons.inj hrest
      rw [hmid, List.append_cons, allBlank_append] at hall
      exact hall.1

/-! ## Ragged texts -/

theorem filter_squeeze (gap : Bool) (ls : List (List Char)) :
    (squeeze gap ls).filter (!·.isEmpty) = ls.filter (!·.isEmpty) := by
  induction ls generalizing gap with
  | nil => rfl
  | cons l ls ih =>
    rw [squeeze]
    split
    · rename_i hempty
      rw [ih, List.filter_cons_of_neg (by simp [hempty])]
    · split
      · rw [List.filter_cons_of_neg (by simp), List.filter_cons, List.filter_cons, ih]
      · rw [List.filter_cons, List.filter_cons, ih]

/-- Laying lines out anew leaves all lines that are not empty. -/
theorem filter_paragraphs (ls : List (List Char)) :
    (paragraphs ls).filter (!·.isEmpty) = ls.filter (!·.isEmpty) := by
  unfold paragraphs
  rw [filter_squeeze]
  induction ls with
  | nil => rfl
  | cons l ls ih =>
    rw [List.dropWhile_cons]
    split
    · rename_i hempty
      rw [ih, List.filter_cons_of_neg (by simp [hempty])]
    · rfl

/-- Empty lines have no indentation to share. -/
theorem commonIndentation_paragraphs (ls : List (List Char)) :
    commonIndentation (paragraphs ls) = commonIndentation ls := by
  unfold commonIndentation
  rw [filter_paragraphs]

theorem mem_paragraphs_iff {ls : List (List Char)} {l : List Char} (hne : l.isEmpty = false) :
    l ∈ paragraphs ls ↔ l ∈ ls := by
  have hmem := congrArg (l ∈ ·) (filter_paragraphs ls)
  simpa [List.mem_filter, hne] using hmem

theorem mem_paragraphs {ls : List (List Char)} {l : List Char} (h : l ∈ paragraphs ls) :
    l = [] ∨ l ∈ ls := by
  cases hempty : l.isEmpty with
  | true => exact .inl (List.isEmpty_iff.1 hempty)
  | false => exact .inr ((mem_paragraphs_iff hempty).1 h)

theorem mapM_eq_none_iff {α β : Type} {f : α → Option β} {as : List α} :
    as.mapM f = none ↔ ∃ a ∈ as, f a = none := by
  induction as with
  | nil => simp
  | cons a as ih =>
    simp only [List.mapM_cons, List.mem_cons, exists_eq_or_imp, ← ih]
    cases f a with
    | none => simp
    | some b => cases as.mapM f <;> simp

/-- The indentation that the lines of a text share ends inside a blank of one of them. -/
def Ragged (cs : List Char) : Prop :=
  ∃ l ∈ (lines cs).map trimEnd, SplitsBlank (commonIndentation ((lines cs).map trimEnd)) l

/-- A text cannot be laid out anew exactly when it is ragged. -/
theorem tidy?_eq_none_iff {cs : List Char} : tidy? cs = none ↔ Ragged cs := by
  unfold tidy? Ragged
  generalize (lines cs).map trimEnd = ls
  rw [Option.map_eq_none_iff, mapM_eq_none_iff, commonIndentation_paragraphs]
  refine exists_congr fun l => ?_
  cases hempty : l.isEmpty with
  | true =>
    obtain rfl := List.isEmpty_iff.1 hempty
    exact ⟨fun h => absurd h.2 (by simp [dedentLine?]),
      fun ⟨_, a, c, b, hl, _⟩ => absurd hl.symm (by simp)⟩
  | false =>
    rw [mem_paragraphs_iff hempty]
    exact and_congr_right fun hl => dedentLine?_eq_none_iff (commonIndentation_le hl)

/-! ## Blanks of one byte -/

/-- All lines are indented by blanks of one byte. -/
def NarrowIndents (cs : List Char) : Prop :=
  ∀ l ∈ lines cs, ∀ c ∈ l.takeWhile isBlank, c.utf8Size = 1

instance (cs : List Char) : Decidable (NarrowIndents cs) :=
  inferInstanceAs (Decidable (∀ l ∈ lines cs, ∀ c ∈ l.takeWhile isBlank, c.utf8Size = 1))

/-- The blanks that a line keeps at its start were there before. -/
theorem mem_takeWhile_trimEnd {l : List Char} {c : Char}
    (h : c ∈ (trimEnd l).takeWhile isBlank) : c ∈ l.takeWhile isBlank := by
  obtain ⟨tail, hl, -⟩ := exists_trimEnd l
  have hbegins : (trimEnd l).takeWhile isBlank <+: (trimEnd l ++ tail).takeWhile isBlank := by
    rw [List.takeWhile_append]
    split
    · rename_i hlen
      rw [(List.takeWhile_prefix isBlank).eq_of_length hlen]
      exact List.prefix_append _ _
    · exact List.prefix_rfl
  rw [← hl] at hbegins
  exact hbegins.subset h

/-- A text whose lines are indented by blanks of one byte, but for those that are blank, can be laid out
anew. -/
theorem exists_tidy?_of_narrow {cs : List Char}
    (h : ∀ l ∈ lines cs, allBlank l = false → ∀ c ∈ l.takeWhile isBlank, c.utf8Size = 1) :
    ∃ tidied, tidy? cs = some tidied := by
  refine Option.ne_none_iff_exists'.1 fun hnone => ?_
  obtain ⟨l, hl, a, c, b, rfl, hblank, hlt, hgt⟩ := tidy?_eq_none_iff.1 hnone
  obtain ⟨l', hl', hl⟩ := List.mem_map.1 hl
  have hink : allBlank l' = false := by
    refine Bool.eq_false_iff.2 fun hall => ?_
    rw [trimEnd_of_allBlank hall] at hl
    exact absurd hl (by simp)
  have hmem : c ∈ (trimEnd l').takeWhile isBlank := by
    rw [hl, List.append_cons,
      List.takeWhile_append_of_pos fun d hd => List.all_eq_true.1 hblank d hd]
    simp
  have hnarrow := h l' hl' hink c (mem_takeWhile_trimEnd hmem)
  omega

/-- A text that is indented by blanks of one byte can be laid out anew. -/
theorem exists_tidy? {cs : List Char} (h : NarrowIndents cs) : ∃ tidied, tidy? cs = some tidied :=
  exists_tidy?_of_narrow fun l hl _ => h l hl

end RpcBindings.Text
