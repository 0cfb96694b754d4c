import Mathlib.Data.List.DropRight
import RpcBindings.Proofs.Masked.InCode
import RpcBindings.Proofs.Masked.Line
import RpcBindings.Proofs.Text.Content

/-!
Comment and attribute lines directly above a line of a source.

Lines are told by the masked copy and cut out of the source, where they are the same: a line feed of
the source shows wherever it stands (`hasChar_newline`). So a text that ends before a line consists of
whole lines (`lines_slice`), and the search upwards from a line passes over the comments and attributes
at the end of these (`map_trim_lines_decorationFrom`). Main statements: which lines of comment stand
above an offset (`commentLines_decorationStart`), and where in a text of whole lines the comments and
attributes at its end begin (`exists_split_decorationFrom`).
-/

namespace RpcBindings

namespace Text

/-! ## Whole lines -/

/-- The lines of whole lines and of a text behind them are those of both. -/
theorem lines_append {t : List Char} (h : ∀ c ∈ t.getLast?, c = '\n') (u : List Char) :
    lines (t ++ u) = lines t ++ lines u := by
  rcases List.eq_nil_or_concat' t with rfl | ⟨t, c, rfl⟩
  · rfl
  · obtain rfl : c = '\n' := h c (by rw [List.getLast?_concat]; rfl)
    rw [List.append_assoc]
    exact linesAux_append_newline_cons [] t u

theorem exists_last_line {t : List Char} (h : t ≠ []) : ∃ line, (lines t).getLast? = some line := by
  refine Option.ne_none_iff_exists'.1 (mt List.getLast?_eq_none_iff.1 ?_)
  unfold lines
  by_cases hmem : '\n' ∈ t
  · obtain ⟨a, b, rfl, ha⟩ := List.eq_append_cons_of_mem hmem
    rw [linesAux_newline ha]
    exact List.cons_ne_nil _ _
  · rw [linesAux_of_not_mem hmem, if_neg (by simpa using h)]
    exact List.cons_ne_nil _ _

/-- A line without the blanks around it, its line feed among them. -/
theorem map_trim_lines_newline {a : List Char} (ha : '\n' ∉ a) :
    (lines (a ++ ['\n'])).map trim = [trim (a ++ ['\n'])] := by
  have hline : lines (a ++ ['\n']) = [endLine a.reverse] := by
    rw [lines, linesAux_newline ha, List.append_nil]
    rfl
  rw [hline, trim_append_blank (by decide), List.map_singleton, trim_endLine, List.reverse_reverse]

end Text

/-- What a list ends in of one kind ends what it ends in of a wider kind. -/
theorem rtakeWhile_isSuffix_filter {α : Type} {p q : α → Bool} (h : ∀ a, p a = true → q a = true)
    (as : List α) : as.rtakeWhile p <:+ (as.rtakeWhile q).filter p := by
  induction as using List.reverseRecOn with
  | nil => exact List.suffix_refl []
  | append_singleton as a ih =>
    by_cases ha : p a = true
    · rw [List.rtakeWhile_concat_pos p as a ha, List.rtakeWhile_concat_pos q as a (h a ha),
        List.filter_append, List.filter_cons_of_pos ha, List.filter_nil]
      obtain ⟨front, hfront⟩ := ih
      exact ⟨front, by rw [← List.append_assoc, hfront]⟩
    · rw [List.rtakeWhile_concat_neg p as a ha]
      exact List.nil_suffix

/-- Elements of a kind at the end of a list are taken from its end. -/
theorem rtakeWhile_append_of_pos {α : Type} {p : α → Bool} {bs : List α}
    (h : ∀ b ∈ bs, p b = true) (as : List α) :
    (as ++ bs).rtakeWhile p = as.rtakeWhile p ++ bs := by
  unfold List.rtakeWhile
  rw [List.reverse_append, List.takeWhile_append_of_pos fun b hb => h b (List.mem_reverse.1 hb),
    List.reverse_append, List.reverse_reverse]

namespace Masked

variable {lang : SourceLang} {source : List Char} {i j k : Nat}

/-- A line feed of the source shows. -/
theorem hasChar_newline {a b : List Char} (h : source = a ++ '\n' :: b) :
    (ofSource lang source).hasChar (Text.byteLength a) '\n' = true := by
  obtain ⟨before, later, hgs, rfl, hlater⟩ :=
    List.map_eq_append_iff.1 ((map_char_glyphs lang source).trans h)
  obtain ⟨g, after, rfl, hchar, -⟩ := List.map_eq_cons_iff.1 hlater
  have hshown : g.code = ['\n'] := by
    obtain ⟨c, mark⟩ := g
    obtain rfl : c = '\n' := hchar
    cases mark <;> decide
  have hcode : (ofSource lang source).CodeFrom (Text.byteLength (before.map (·.char)))
      ('\n' :: showGlyphs after) := by
    refine ⟨showGlyphs before, ?_, byteLength_showGlyphs (whole_of_glyphsFrom_eq hgs)⟩
    show mask lang source = _
    rw [mask, hgs, showGlyphs_append, showGlyphs_cons, hshown]
    rfl
  exact hcode.hasChar (by decide)

/-! ## Whole lines of a source -/

/-- Before a line a line feed stands in the source. -/
theorem IsLineStart.slice_newline (h : (ofSource lang source).IsLineStart (i + 1)) :
    (ofSource lang source).CutsAt i ∧ (ofSource lang source).CutsAt (i + 1) ∧
      (ofSource lang source).slice i (i + 1) = ['\n'] := by
  obtain hzero | ⟨k, hk, hbyte⟩ := h
  · exact absurd hzero (Nat.succ_ne_zero i)
  · obtain rfl : i = k := Nat.succ.inj hk
    have hchar := hasChar_iff.2 hbyte
    obtain ⟨hi, hi'⟩ := cutsAt_of_hasChar hchar (by decide) (by decide)
    exact ⟨hi, hi', slice_of_hasChar hchar (by decide) (by decide)⟩

theorem slice_self (m : Masked) (i : Nat) : m.slice i i = [] := by
  unfold slice Text.cut
  rw [Nat.sub_self, Text.takeBytes]

/-- What stands before a line ends in a line feed. -/
theorem IsLineStart.getLast?_slice (h : (ofSource lang source).IsLineStart j)
    (hi : (ofSource lang source).CutsAt i) (hij : i ≤ j) :
    ∀ c ∈ ((ofSource lang source).slice i j).getLast?, c = '\n' := by
  intro c hc
  rcases Nat.eq_or_lt_of_le hij with rfl | hlt
  · rw [slice_self] at hc
    exact absurd hc (by simp)
  · obtain ⟨j, rfl⟩ : ∃ n, j = n + 1 := ⟨j - 1, by omega⟩
    obtain ⟨hj, hj', hslice⟩ := h.slice_newline
    rw [slice_append hi hj hj' (by omega) (Nat.le_succ j), hslice, List.getLast?_concat] at hc
    exact (Option.some.inj hc).symm

/-- The lines between two offsets are those up to a line between them and those from it on. -/
theorem lines_slice (hi : (ofSource lang source).CutsAt i) (hj : (ofSource lang source).IsLineStart j)
    (hk : (ofSource lang source).CutsAt k) (hij : i ≤ j) (hjk : j ≤ k) :
    Text.lines ((ofSource lang source).slice i k) =
      Text.lines ((ofSource lang source).slice i j) ++
        Text.lines ((ofSource lang source).slice j k) := by
  rw [slice_append hi hj.cutsAt hk hij hjk]
  exact Text.lines_append (hj.getLast?_slice hi hij) _

/-- The line directly above a line. -/
theorem IsLineStart.exists_line (h : (ofSource lang source).IsLineStart (i + 1)) :
    ∃ line, '\n' ∉ line ∧ (ofSource lang source).slice ((ofSource lang source).lineStart i) (i + 1) =
      line ++ ['\n'] := by
  obtain ⟨hi, hi', hslice⟩ := h.slice_newline
  have hstart := (isLineStart_lineStart (ofSource lang source) i).cutsAt
  have hle := (ofSource lang source).lineStart_le i
  refine ⟨_, fun hmem => ?_, (slice_append hstart hi hi' hle (Nat.le_succ i)).trans
    (congrArg _ hslice)⟩
  -- a line feed in the line would show, and the line begins behind the last one that does
  obtain ⟨⟨a, a', ha, hlen⟩, -⟩ := hstart
  obtain ⟨⟨b, b', hb, rfl⟩, -⟩ := hi
  obtain ⟨line, rfl, -, hline⟩ := Text.exists_split_of_le ha hb (hlen ▸ hle)
  have hline : (ofSource lang source).slice ((ofSource lang source).lineStart
      (Text.byteLength (a ++ line))) (Text.byteLength (a ++ line)) = line := by
    rw [← hlen]
    exact hline
  rw [hline] at hmem
  obtain ⟨x, y, rfl⟩ := List.append_of_mem hmem
  have hchar : (ofSource lang source).hasChar (Text.byteLength (a ++ x)) '\n' = true :=
    hasChar_newline (b := y ++ b') (hb.trans (by simp))
  have hlt := lt_lineStart (i := Text.byteLength (a ++ (x ++ '\n' :: y))) (hasChar_iff.1 hchar) (by
    simp only [Text.byteLength_append, Text.byteLength_cons]
    have := Char.utf8Size_pos '\n'
    omega)
  rw [← hlen, Text.byteLength_append] at hlt
  omega

/-! ## Comments and attributes -/

/-- The lines above a line, without the blanks around them. -/
def linesAbove (m : Masked) (i : Nat) : List (List Char) :=
  (Text.lines (m.slice 0 i)).map Text.trim

/-- From a line upwards the search passes over the comments and attributes that the lines above it end
in. -/
theorem map_trim_lines_decorationFrom (h : (ofSource lang source).IsLineStart i) :
    (Text.lines ((ofSource lang source).slice ((ofSource lang source).decorationFrom i) i)).map
        Text.trim =
      ((ofSource lang source).linesAbove i).rtakeWhile isDecoration := by
  induction i using Nat.strongRecOn with
  | ind i ih =>
    cases i with
    | zero =>
      rw [decorationFrom, dif_pos rfl]
      unfold linesAbove
      rw [slice_self]
      rfl
    | succ i =>
      have habove := isLineStart_lineStart (ofSource lang source) i
      have hle := (ofSource lang source).lineStart_le i
      obtain ⟨line, hline, hslice⟩ := h.exists_line
      have hlast : (Text.lines ((ofSource lang source).slice ((ofSource lang source).lineStart i)
          (i + 1))).map Text.trim = [Text.trim (line ++ ['\n'])] := by
        rw [hslice]
        exact Text.map_trim_lines_newline hline
      have hlines : (ofSource lang source).linesAbove (i + 1) =
          (ofSource lang source).linesAbove ((ofSource lang source).lineStart i) ++
            [Text.trim (line ++ ['\n'])] := by
        unfold linesAbove
        rw [lines_slice (cutsAt_zero _) habove h.cutsAt (Nat.zero_le _) (by omega), List.map_append,
          hlast]
      rw [hlines, decorationFrom_succ, hslice]
      cases hdecoration : isDecoration (Text.trim (line ++ ['\n'])) with
      | true =>
        have hfrom := decorationFrom_le (ofSource lang source) ((ofSource lang source).lineStart i)
        rw [if_pos rfl, List.rtakeWhile_concat_pos _ _ _ hdecoration,
          lines_slice (isLineStart_decorationFrom habove).cutsAt habove h.cutsAt hfrom (by omega),
          List.map_append, hlast, ih _ (by omega) habove]
      | false =>
        rw [if_neg Bool.false_ne_true, slice_self,
          List.rtakeWhile_concat_neg _ _ _ (by rw [hdecoration]; exact Bool.false_ne_true)]
        rfl

/-- Where a text of whole lines ends, a line begins. -/
theorem isLineStart_of_lines {x rest : List Char} (h : source = x ++ rest)
    (hx : ∀ c ∈ x.getLast?, c = '\n') : (ofSource lang source).IsLineStart (Text.byteLength x) := by
  rcases List.eq_nil_or_concat' x with rfl | ⟨x, c, rfl⟩
  · exact .inl rfl
  · obtain rfl : c = '\n' := hx c (by rw [List.getLast?_concat]; rfl)
    rw [List.append_assoc] at h
    refine .inr ⟨Text.byteLength x, ?_, hasChar_iff.1 (hasChar_newline h)⟩
    rw [Text.byteLength_append]
    rfl

theorem IsLineStart.le_lineStart {m : Masked} (h : m.IsLineStart i) (hij : i ≤ j) :
    i ≤ m.lineStart j := by
  rcases h with rfl | ⟨k, rfl, hk⟩
  · exact Nat.zero_le _
  · exact lt_lineStart hk hij

/-- The line of an offset begins behind the whole lines before it. -/
theorem lineStart_of_lines {x margin rest : List Char} (h : source = x ++ margin ++ rest)
    (hx : ∀ c ∈ x.getLast?, c = '\n') (hmargin : '\n' ∉ margin) :
    (ofSource lang source).lineStart (Text.byteLength (x ++ margin)) = Text.byteLength x := by
  have hle := (ofSource lang source).lineStart_le (Text.byteLength (x ++ margin))
  have hline := isLineStart_lineStart (ofSource lang source) (Text.byteLength (x ++ margin))
  have hbegins : (ofSource lang source).IsLineStart (Text.byteLength x) :=
    isLineStart_of_lines (h.trans (List.append_assoc x margin rest)) hx
  refine Nat.le_antisymm (Nat.le_of_not_lt fun hlt => ?_)
    (hbegins.le_lineStart (by rw [Text.byteLength_append]; omega))
  -- a line that begins later has its line feed in the margin
  obtain ⟨j, hj⟩ : ∃ j, (ofSource lang source).lineStart (Text.byteLength (x ++ margin)) = j + 1 :=
    ⟨_, (Nat.succ_pred_eq_of_pos (Nat.zero_lt_of_lt hlt)).symm⟩
  rw [hj] at hle hline hlt
  obtain ⟨⟨⟨a, a', ha, rfl⟩, -⟩, ⟨⟨b, b', hb, hlen⟩, -⟩, hslice⟩ := hline.slice_newline
  rw [← hlen] at hslice
  obtain ⟨mid, rfl, -, hmid⟩ := Text.exists_split_of_le ha hb (by omega)
  obtain rfl : mid = ['\n'] := hmid.symm.trans hslice
  obtain ⟨u, rfl, -, -⟩ := Text.exists_split_of_le (h.trans (List.append_assoc x margin rest)) ha
    (by omega)
  obtain ⟨v, hv, -, -⟩ := Text.exists_split_of_le hb h (by omega)
  have hin : margin = u ++ ['\n'] ++ v := by
    simpa using hv
  exact hmargin (by simp [hin])

theorem slice_zero {x rest : List Char} (h : source = x ++ rest) :
    (ofSource lang source).slice 0 (Text.byteLength x) = x := by
  have hcut := Text.cut_append [] x rest
  rw [List.nil_append, ← h, Text.byteLength_nil, Nat.zero_add] at hcut
  exact hcut

/-- From whole lines upwards the search goes over all lines of comment and attribute at their end. -/
theorem exists_split_decorationFrom {x rest : List Char} (h : source = x ++ rest)
    (hx : ∀ c ∈ x.getLast?, c = '\n') :
    ∃ u v, x = u ++ v ∧ (ofSource lang source).decorationFrom (Text.byteLength x) =
        Text.byteLength u ∧ (∀ c ∈ u.getLast?, c = '\n') ∧
      (∀ line ∈ (Text.lines u).getLast?, isDecoration (Text.trim line) = false) ∧
      ∀ line ∈ Text.lines v, isDecoration (Text.trim line) = true := by
  have hbegins : (ofSource lang source).IsLineStart (Text.byteLength x) := isLineStart_of_lines h hx
  have hle := decorationFrom_le (ofSource lang source) (Text.byteLength x)
  have hfrom := isLineStart_decorationFrom hbegins
  obtain ⟨⟨u, u', hu, hlen⟩, -⟩ := hfrom.cutsAt
  obtain ⟨v, rfl, -, hv⟩ := Text.exists_split_of_le hu h (by omega)
  rw [← hlen] at hfrom ⊢
  have hwhole : ∀ c ∈ u.getLast?, c = '\n' := by
    have hlast := hfrom.getLast?_slice (cutsAt_zero _) (Nat.zero_le _)
    rwa [slice_zero (show source = u ++ u' from hu)] at hlast
  have hlines : ((Text.lines u).map Text.trim ++ (Text.lines v).map Text.trim).rtakeWhile
      isDecoration = (Text.lines v).map Text.trim := by
    have hwalk := map_trim_lines_decorationFrom hbegins
    rw [← hlen, show slice _ _ _ = v from hv, linesAbove, slice_zero h, Text.lines_append hwhole,
      List.map_append] at hwalk
    exact hwalk.symm
  have hall : ∀ line ∈ (Text.lines v).map Text.trim, isDecoration line = true := fun line hline =>
    List.mem_rtakeWhile_imp (hlines.symm ▸ hline)
  refine ⟨u, v, rfl, rfl, hwhole, fun line hline => ?_, fun line hline =>
    hall _ (List.mem_map_of_mem hline)⟩
  rw [rtakeWhile_append_of_pos hall, List.append_left_eq_self] at hlines
  obtain ⟨init, hinit⟩ := List.getLast?_eq_some_iff.1 hline
  refine Bool.eq_false_iff.2 fun hdecoration => ?_
  rw [hinit, List.map_append, List.map_singleton,
    List.rtakeWhile_concat_pos _ _ _ hdecoration] at hlines
  exact absurd hlines (List.append_ne_nil_of_right_ne_nil _ (List.cons_ne_nil _ _))

/-- The comments above an offset are those of the comments and attributes that the lines above its
line end in, and what begins as a comment before the offset on its own line. -/
theorem commentLines_decorationStart (hi : (ofSource lang source).CutsAt i) :
    Text.commentLines ((ofSource lang source).slice ((ofSource lang source).decorationStart i) i) =
      (((ofSource lang source).linesAbove ((ofSource lang source).lineStart i)).rtakeWhile
        isDecoration).filter Text.isComment ++
      Text.commentLines ((ofSource lang source).slice ((ofSource lang source).lineStart i) i) := by
  have hstart := isLineStart_lineStart (ofSource lang source) i
  have hlines := lines_slice (isLineStart_decorationFrom hstart).cutsAt hstart hi
    (decorationFrom_le _ _) ((ofSource lang source).lineStart_le i)
  unfold Text.commentLines decorationStart
  rw [hlines, List.map_append, List.filter_append, map_trim_lines_decorationFrom hstart]

end Masked

end RpcBindings
