import RpcBindings.Proofs.Client.ReadBack
import RpcBindings.Proofs.Go.ImportUse
import RpcBindings.Proofs.Masked.Nest

/-!
Lines of import clauses and how they are read.

A spec is well formed when it is a path of elements, with a name, `_` or `.` before it as an alias.
What it imports is read from its line in a clause (`Import.WellFormed.ofLine?_clauseLine`), and what a
clause imports from its lines (`clauseImports_line`, `clauseImports_block`).
-/

namespace RpcBindings

open Masked

namespace Text

/-! ## What stands before a comment -/

theorem beforeComment_append {a : List Char} (ha : '/' ∉ a) (b : List Char) :
    beforeComment (a ++ b) = a ++ beforeComment b := by
  induction a with
  | nil => rfl
  | cons c a ih =>
    rw [List.mem_cons, not_or] at ha
    have hcomment : isComment (c :: (a ++ b)) = false := by
      unfold isComment
      rw [List.isPrefixOf_cons_cons, Bool.and_eq_false_iff]
      exact .inl (beq_eq_false_iff_ne.2 ha.1)
    rw [List.cons_append, beforeComment, hcomment, if_neg Bool.false_ne_true, ih ha.2]
    rfl

/-- A single slash begins no comment. -/
theorem beforeComment_slash {c : Char} (hc : c ≠ '/') (b : List Char) :
    beforeComment ('/' :: c :: b) = '/' :: beforeComment (c :: b) := by
  have hcomment : isComment ('/' :: c :: b) = false := by
    unfold isComment
    rw [List.isPrefixOf_cons_cons, List.isPrefixOf_cons_cons, beq_eq_false_iff_ne.2 hc.symm]
    rfl
  rw [beforeComment, hcomment, if_neg Bool.false_ne_true]

/-! ## The last blank -/

theorem splitAtLastBlank?_append {a b : List Char} {blank : Char}
    (hb : ∀ c ∈ b, isBlank c = false) (hblank : isBlank blank = true) :
    splitAtLastBlank? (a ++ blank :: b) = some (a, b) := by
  have hreverse := splitAtBlank?_append (b := a.reverse)
    (fun c hc => hb c (List.mem_reverse.1 hc)) hblank
  unfold splitAtLastBlank?
  rw [List.reverse_append, List.reverse_cons, List.append_assoc, List.singleton_append, hreverse,
    Option.map_some, List.reverse_reverse, List.reverse_reverse]

theorem splitAtLastBlank?_of_not_isBlank {cs : List Char} (h : ∀ c ∈ cs, isBlank c = false) :
    splitAtLastBlank? cs = none := by
  unfold splitAtLastBlank?
  rw [splitAtBlank?_eq_none_iff.2 fun c hc => h c (List.mem_reverse.1 hc)]
  rfl

/-- A text with a character that is not blank at both ends has no blanks around it. -/
theorem trim_of_ends {c d : Char} {cs : List Char} (hc : isBlank c = false)
    (hd : isBlank d = false) : trim (c :: (cs ++ [d])) = c :: (cs ++ [d]) := by
  have hstart : trimStart (c :: (cs ++ [d])) = c :: (cs ++ [d]) :=
    @trimStart_append [] c rfl hc (cs ++ [d])
  unfold trim
  rw [hstart]
  exact @trimEnd_append [] d rfl hd (c :: cs)

end Text

namespace Go

/-! ## Well-formed imports -/

/-- A character that can stand in an identifier: an ASCII letter or digit, an underscore, or a
character beyond ASCII that is no blank. -/
def isNameChar (c : Char) : Bool :=
  isLetterOrDigit c || (128 ≤ c.toNat && !Text.isBlank c)

/-- A text of characters that can stand in an identifier, as every identifier is. -/
def IsNameText (t : List Char) : Prop :=
  t ≠ [] ∧ t.all isNameChar = true

instance (t : List Char) : Decidable (IsNameText t) :=
  inferInstanceAs (Decidable (_ ∧ _))

/-- A character that can stand in an element of a path. -/
def isElementChar (c : Char) : Bool :=
  isLetterOrDigit c || c == '.' || c == '-'

/-- An element of a path. -/
def IsElement (t : List Char) : Prop :=
  t ≠ [] ∧ t.all isElementChar = true

/-- One element or more, with single slashes between them. -/
inductive IsPath : List Char → Prop
  | element {e : List Char} (he : IsElement e) : IsPath e
  | more {e t : List Char} (he : IsElement e) (ht : IsPath t) : IsPath (e ++ '/' :: t)

namespace Import

/-- An import whose alias is a name, `_` or `.`, and whose path consists of elements. -/
structure WellFormed (i : Import) : Prop where
  name : ∀ a, i.alias? = some a → IsNameText a.toList ∨ a = "."
  path : IsPath i.path.toList

/-- The spec reads `path` or `alias path`, with any blanks around it and between the two. -/
def IsWrittenAs (i : Import) (spec : String) : Prop :=
  ∃ before text after, spec.toList = before ++ text ++ after ∧ Text.allBlank before = true ∧
    Text.allBlank after = true ∧
    match i.alias? with
    | none => text = i.path.toList
    | some a => ∃ blank gap, Text.isBlank blank = true ∧ Text.allBlank gap = true ∧
        text = a.toList ++ blank :: (gap ++ i.path.toList)

end Import

/-! ## Characters of lines -/

/-- The characters of names are no blanks, and they neither begin nor enclose anything. -/
theorem isNameChar_spec {c : Char} (hc : isNameChar c = true) :
    Text.isBlank c = false ∧ isBareChar c = true ∧ isDelimiter c = false := by
  unfold isNameChar at hc
  rw [Bool.or_eq_true, Bool.and_eq_true, decide_eq_true_eq] at hc
  have hne {d : Char} (hd : isWordByte d.toUInt8 = false) (hlt : d.toNat < 128) : c ≠ d := by
    rcases hc with hc | ⟨hc, -⟩
    · exact ne_of_isWordByte (isWordByte_of_isLetterOrDigit hc).2 hd
    · rintro rfl
      omega
  refine ⟨?_, ?_, Bool.eq_false_iff.2 fun hmem => ?_⟩
  · rcases hc with hc | ⟨-, hc⟩
    · exact not_isBlank_of_isWordByte (isWordByte_of_isLetterOrDigit hc)
    · simpa using hc
  · unfold isBareChar
    simp only [Bool.and_eq_true, bne_iff_ne]
    exact ⟨⟨⟨hne (by decide) (by decide), hne (by decide) (by decide)⟩,
      hne (by decide) (by decide)⟩, hne (by decide) (by decide)⟩
  · have hall : ∀ d ∈ ['(', ')', '[', ']', '\x7b', '\x7d'],
        isWordByte d.toUInt8 = false ∧ d.toNat < 128 := by decide
    obtain ⟨hword, hlt⟩ := hall c (List.contains_iff_mem.1 hmem)
    exact hne hword hlt rfl

/-- The characters of path elements are no blanks, and they mean nothing in a literal. -/
theorem isElementChar_spec {c : Char} (hc : isElementChar c = true) :
    Text.isBlank c = false ∧ isUnquoted c = true ∧ c ≠ '/' := by
  unfold isElementChar at hc
  rw [Bool.or_eq_true, Bool.or_eq_true, beq_iff_eq, beq_iff_eq] at hc
  rcases hc with (hc | rfl) | rfl
  · have hword := isWordByte_of_isLetterOrDigit hc
    have hne {d : Char} (hd : isWordByte d.toUInt8 = false) : c ≠ d := ne_of_isWordByte hword.2 hd
    refine ⟨not_isBlank_of_isWordByte hword, ?_, hne (by decide)⟩
    unfold isUnquoted
    rw [Bool.and_eq_true, bne_iff_ne, bne_iff_ne]
    exact ⟨hne (by decide), hne (by decide)⟩
  · decide
  · decide

namespace IsPath

variable {t : List Char}

theorem not_isBlank (h : IsPath t) : ∀ c ∈ t, Text.isBlank c = false ∧ isUnquoted c = true := by
  induction h with
  | element he =>
    exact fun c hc => ⟨(isElementChar_spec (List.all_eq_true.1 he.2 c hc)).1,
      (isElementChar_spec (List.all_eq_true.1 he.2 c hc)).2.1⟩
  | @more e t he ht ih =>
    intro c hc
    rcases List.mem_append.1 hc with hc | hc
    · have := isElementChar_spec (List.all_eq_true.1 he.2 c hc)
      exact ⟨this.1, this.2.1⟩
    · rcases List.mem_cons.1 hc with rfl | hc
      · decide
      · exact ih c hc

theorem all_isUnquoted (h : IsPath t) : t.all isUnquoted = true :=
  List.all_eq_true.2 fun c hc => (h.not_isBlank c hc).2

/-- A path begins with a character of an element. -/
theorem exists_cons (h : IsPath t) : ∃ c cs, t = c :: cs ∧ c ≠ '/' := by
  have hfirst {e : List Char} (he : IsElement e) : ∃ c cs, e = c :: cs ∧ c ≠ '/' := by
    obtain ⟨c, cs, rfl⟩ := List.exists_cons_of_ne_nil he.1
    exact ⟨c, cs, rfl, (isElementChar_spec (List.all_eq_true.1 he.2 c List.mem_cons_self)).2.2⟩
  induction h with
  | element he => exact hfirst he
  | @more e t he =>
    obtain ⟨c, cs, rfl, hc⟩ := hfirst he
    exact ⟨c, cs ++ '/' :: t, rfl, hc⟩

/-- A path holds no comment, and begins none before a quote. -/
theorem beforeComment_append_quote (h : IsPath t) :
    Text.beforeComment (t ++ ['"']) = t ++ ['"'] := by
  have hslash {e : List Char} (he : IsElement e) : '/' ∉ e := fun hmem =>
    (isElementChar_spec (List.all_eq_true.1 he.2 _ hmem)).2.2 rfl
  induction h with
  | element he => exact Text.beforeComment_append (hslash he) ['"']
  | @more e t he ht ih =>
    obtain ⟨c, cs, rfl, hc⟩ := ht.exists_cons
    rw [List.append_assoc, Text.beforeComment_append (hslash he)]
    refine congrArg (e ++ ·) ?_
    show Text.beforeComment ('/' :: c :: (cs ++ ['"'])) = _
    rw [Text.beforeComment_slash hc]
    exact congrArg ('/' :: ·) ih

/-- No element of a path is empty. -/
theorem splitOn_ne_nil (h : IsPath t) : ∀ e ∈ Text.splitOn '/' t, e ≠ [] := by
  have hslash {e : List Char} (he : IsElement e) : '/' ∉ e := fun hmem =>
    (isElementChar_spec (List.all_eq_true.1 he.2 _ hmem)).2.2 rfl
  induction h with
  | element he =>
    intro e hmem
    rw [Text.splitOn_of_not_mem (hslash he), List.mem_singleton] at hmem
    exact hmem ▸ he.1
  | more he ht ih =>
    intro e hmem
    rw [Text.splitOn_append_cons, Text.splitOn_of_not_mem (hslash he), List.singleton_append,
      List.mem_cons] at hmem
    rcases hmem with rfl | hmem
    · exact he.1
    · exact ih e hmem

end IsPath

/-! ## Reading a line -/

namespace Import.WellFormed

variable {i : Import}

/-- The characters of an alias. -/
theorem alias_char (h : i.WellFormed) {a : String} (ha : i.alias? = some a) :
    a.toList ≠ [] ∧ ∀ c ∈ a.toList,
      Text.isBlank c = false ∧ isBareChar c = true ∧ isDelimiter c = false := by
  rcases h.name a ha with hname | rfl
  · exact ⟨hname.1, fun c hc => isNameChar_spec (List.all_eq_true.1 hname.2 c hc)⟩
  · decide

theorem quoted_not_isBlank (h : i.WellFormed) :
    ∀ c ∈ quoted i.path.toList, Text.isBlank c = false := by
  intro c hc
  unfold quoted at hc
  rcases List.mem_cons.1 hc with rfl | hc
  · decide
  · rcases List.mem_append.1 hc with hc | hc
    · exact (h.path.not_isBlank c hc).1
    · rw [List.mem_singleton.1 hc]
      decide

theorem name_ne_empty (h : i.WellFormed) : i.name ≠ "" := by
  unfold Import.name
  cases halias : i.alias? with
  | some a =>
    intro hempty
    exact (h.alias_char halias).1 (by rw [show a = "" from hempty]; rfl)
  | none =>
    obtain ⟨e, he, hname⟩ := Import.exists_packageOf i.path
    intro hempty
    have hofList : String.ofList e = "" := hname.symm.trans hempty
    exact h.path.splitOn_ne_nil e he (by rw [← String.toList_ofList (l := e), hofList]; rfl)

/-- A spec is read as the import that it is written for. -/
theorem ofSpec_eq (h : i.WellFormed) {spec : String} (hspec : i.IsWrittenAs spec) :
    Import.ofSpec spec = i := by
  obtain ⟨before, text, after, hlist, hbefore, hafter, htext⟩ := hspec
  have hpath : Text.trim i.path.toList = i.path.toList :=
    Text.trim_of_not_isBlank fun c hc => (h.path.not_isBlank c hc).1
  have htrim : Text.trim spec.toList = Text.trim text := by
    rw [hlist, Text.trim_append_blank hafter, Text.trim_blank_append hbefore]
  obtain ⟨alias?, path⟩ := i
  cases alias? with
  | none =>
    obtain rfl : text = path.toList := htext
    have hsplit : Text.splitAtBlank? path.toList = none :=
      Text.splitAtBlank?_eq_none_iff.2 fun c hc => (h.path.not_isBlank c hc).1
    unfold Import.ofSpec
    simp only [htrim, hpath, hsplit, String.ofList_toList]
  | some a =>
    obtain ⟨blank, gap, hblank, hgap, rfl⟩ := htext
    obtain ⟨hne, halias⟩ := h.alias_char rfl
    have hends : Text.trim (a.toList ++ blank :: (gap ++ path.toList)) =
        a.toList ++ blank :: (gap ++ path.toList) := by
      obtain ⟨c, cs, hcs⟩ := List.exists_cons_of_ne_nil hne
      obtain ⟨d, ds, hds, -⟩ := h.path.exists_cons
      rcases List.eq_nil_or_concat path.toList with hnil | ⟨ds, d, hds⟩
      · exact absurd (hds.symm.trans hnil) (List.cons_ne_nil d ds)
      · have hc : Text.isBlank c = false := (halias c (hcs ▸ List.mem_cons_self)).1
        have hd : Text.isBlank d = false := (h.path.not_isBlank d (by simp [hds])).1
        have := @Text.trim_of_ends c d (cs ++ blank :: (gap ++ ds)) hc hd
        simpa [hcs, hds] using this
    have hsplit := Text.splitAtBlank?_append (b := gap ++ path.toList)
      (fun c hc => (halias c hc).1) hblank
    unfold Import.ofSpec
    simp only [htrim, hends, hsplit, Text.trim_blank_append hgap, hpath, String.ofList_toList]

/-- An import is read from its line. -/
theorem ofLine?_line (h : i.WellFormed) : Import.ofLine? i.line.toList = some i := by
  rw [Import.toList_line]
  unfold Import.ofLine? Import.lead
  obtain ⟨alias?, path⟩ := i
  cases alias? with
  | none =>
    rw [List.nil_append, Text.splitAtLastBlank?_of_not_isBlank h.quoted_not_isBlank]
    simp only [unquote?_quoted, Option.map_some, String.ofList_toList]
  | some a =>
    have halias := (h.alias_char rfl).2
    simp only [List.append_assoc, List.singleton_append]
    rw [Text.splitAtLastBlank?_append h.quoted_not_isBlank Text.isBlank_space]
    simp only [unquote?_quoted, Option.map_some, String.ofList_toList,
      Text.trim_of_not_isBlank fun c hc => (halias c hc).1]

/-- The alias of an import and the space behind it. -/
theorem lead_char (h : i.WellFormed) {c : Char} (hc : c ∈ i.lead) :
    c ≠ '\n' ∧ isBareChar c = true ∧ isDelimiter c = false := by
  unfold Import.lead at hc
  cases ha : i.alias? with
  | none =>
    rw [ha] at hc
    exact absurd hc List.not_mem_nil
  | some a =>
    rw [ha] at hc
    rcases List.mem_append.1 hc with hc | hc
    · obtain ⟨hblank, hbare, hdelimiter⟩ := (h.alias_char ha).2 c hc
      refine ⟨?_, hbare, hdelimiter⟩
      rintro rfl
      exact absurd hblank (by decide)
    · rw [List.mem_singleton.1 hc]
      decide

theorem newline_not_mem_line (h : i.WellFormed) : '\n' ∉ i.line.toList := by
  rw [Import.toList_line, List.mem_append, not_or]
  exact ⟨fun hmem => (h.lead_char hmem).1 rfl,
    fun hmem => absurd (h.quoted_not_isBlank _ hmem) (by decide)⟩

/-- The line of an import ends in a quote and has no blanks around it. -/
theorem exists_line (h : i.WellFormed) :
    ∃ init, i.line.toList = init ++ ['"'] ∧ Text.trim i.line.toList = i.line.toList := by
  refine ⟨i.lead ++ '"' :: i.path.toList, ?_, ?_⟩
  · rw [Import.toList_line]
    simp [quoted]
  · rw [Import.toList_line]
    unfold quoted Import.lead
    cases ha : i.alias? with
    | none => exact Text.trim_of_ends (by decide) (by decide)
    | some a =>
      obtain ⟨hne, hchars⟩ := h.alias_char ha
      obtain ⟨c, cs, hcs⟩ := List.exists_cons_of_ne_nil hne
      have hc : Text.isBlank c = false := (hchars c (hcs ▸ List.mem_cons_self)).1
      have := @Text.trim_of_ends c '"' (cs ++ ' ' :: '"' :: i.path.toList) hc (by decide)
      simpa [hcs] using this

/-- An import is read from a line of a clause, whatever blanks stand before it. -/
theorem ofLine?_clauseLine (h : i.WellFormed) (blank : List Char)
    (hblank : Text.allBlank blank = true) :
    Import.ofLine? (Text.trim (Text.beforeComment (blank ++ i.line.toList))) = some i := by
  have hslash : '/' ∉ blank ++ (i.lead ++ ['"']) := by
    simp only [List.mem_append, not_or]
    refine ⟨fun hmem => ?_, fun hmem => absurd (h.lead_char hmem).2.1 (by decide), by decide⟩
    exact absurd (List.all_eq_true.1 hblank _ hmem) (by decide)
  have hcomment : Text.beforeComment (blank ++ i.line.toList) = blank ++ i.line.toList := by
    have hline : blank ++ i.line.toList =
        blank ++ (i.lead ++ ['"']) ++ (i.path.toList ++ ['"']) := by
      rw [Import.toList_line]
      simp [quoted]
    rw [hline, Text.beforeComment_append hslash, h.path.beforeComment_append_quote]
  obtain ⟨-, -, htrim⟩ := h.exists_line
  rw [hcomment, Text.trim_blank_append hblank, htrim, h.ofLine?_line]

end Import.WellFormed

/-! ## Reading a clause -/

/-- The import of a clause of one line. -/
theorem clauseImports_line {i : Import} (h : i.WellFormed) : clauseImports i.line.toList = [i] := by
  obtain ⟨init, hline, -⟩ := h.exists_line
  have hlines : Text.lines i.line.toList = [i.line.toList] := by
    unfold Text.lines
    rw [Text.linesAux_of_not_mem h.newline_not_mem_line, List.reverse_nil, List.nil_append, hline]
    cases init <;> rfl
  have hread := h.ofLine?_clauseLine [] rfl
  rw [List.nil_append] at hread
  unfold clauseImports
  simp only [hlines, List.filterMap_cons, hread, List.filterMap_nil]

/-- What stands between the parentheses of a clause. -/
def blockText (is : List Import) : List Char :=
  '\n' :: is.flatMap fun i => '\t' :: i.line.toList ++ ['\n']

theorem clauseImports_lines {is : List Import} (h : ∀ i ∈ is, i.WellFormed) :
    clauseImports (is.flatMap fun i => '\t' :: i.line.toList ++ ['\n']) = is := by
  induction is with
  | nil => rfl
  | cons i is ih =>
    have hi := h i List.mem_cons_self
    obtain ⟨init, hline, -⟩ := hi.exists_line
    have hnewline : '\n' ∉ '\t' :: i.line.toList := by
      rw [List.mem_cons, not_or]
      exact ⟨by decide, hi.newline_not_mem_line⟩
    have hend : Text.endLine (('\t' :: i.line.toList).reverse ++ []) = '\t' :: i.line.toList := by
      rw [hline, List.append_nil, ← List.cons_append, List.reverse_append]
      show ('"' :: ('\t' :: init).reverse).reverse = _
      rw [List.reverse_cons, List.reverse_reverse]
    have hlines (rest : List Char) : Text.lines ('\t' :: i.line.toList ++ '\n' :: rest) =
        ('\t' :: i.line.toList) :: Text.lines rest := by
      rw [Text.lines, Text.linesAux_newline hnewline, hend]
    have hread : Import.ofLine? (Text.trim (Text.beforeComment ('\t' :: i.line.toList))) = some i :=
      hi.ofLine?_clauseLine ['\t'] (by decide)
    have hlater := ih fun j hj => h j (List.mem_cons_of_mem i hj)
    unfold clauseImports at hlater ⊢
    rw [List.flatMap_cons, List.append_assoc, List.singleton_append]
    simp only [hlines, List.filterMap_cons, hread, hlater]

/-- The imports of a clause with parentheses: the line of the opening one holds none. -/
theorem clauseImports_block {is : List Import} (h : ∀ i ∈ is, i.WellFormed) :
    clauseImports (blockText is) = is :=
  clauseImports_lines h

end Go

namespace Masked

/-! ## How lines are masked -/

/-- No line feed shows where there is none. -/
theorem newline_not_mem_mask {lang : SourceLang} {t : List Char} (h : '\n' ∉ t) :
    '\n' ∉ mask lang t := by
  intro hmem
  obtain ⟨g, hg, hcode⟩ := List.mem_flatMap.1 hmem
  have hchar : g.char ∈ t := by
    rw [← map_char_glyphs lang t]
    exact List.mem_map_of_mem hg
  have hne : g.char ≠ '\n' := fun heq => h (heq ▸ hchar)
  unfold Glyph.code at hcode
  cases hmark : g.mark with
  | shown =>
    simp only [hmark] at hcode
    exact hne (List.mem_singleton.1 hcode).symm
  | hidden =>
    simp only [hmark, Glyph.blank, if_neg hne] at hcode
    exact absurd (List.eq_of_mem_replicate hcode) (by decide)
  | torn =>
    simp only [hmark, Glyph.remnant] at hcode
    split at hcode
    · exact hne (List.mem_singleton.1 hcode).symm
    · rcases List.mem_append.1 hcode with hcode | hcode
      · exact absurd (List.eq_of_mem_replicate hcode) (by decide)
      · exact absurd (List.mem_singleton.1 hcode) (by decide)

/-- A text that the scan leaves as it enters it and that shows no delimiter. -/
structure Flat (t : List Char) : Prop extends Solid t where
  undelimited : ∀ c ∈ mask .go t, isDelimiter c = false

namespace Flat

variable {a b t : List Char}

theorem append (ha : Flat a) (hb : Flat b) : Flat (a ++ b) := by
  refine ⟨ha.toSolid.append hb.toSolid, fun c hc => ?_⟩
  rw [ha.toSolid.mask_append, List.mem_append] at hc
  exact hc.elim (ha.undelimited c) (hb.undelimited c)

theorem regular (h : Flat t) : Regular t := by
  refine ⟨h.closed, ?_⟩
  unfold WellNested
  rw [← nestFrom_delimiters, delimiters_eq_nil h.undelimited]
  rfl

end Flat

theorem flat_of_chars {t : List Char} (h : ∀ c ∈ t, isBareChar c = true ∧ isDelimiter c = false) :
    Flat t := by
  have hbare : t.all isBareChar = true := List.all_eq_true.2 fun c hc => (h c hc).1
  refine ⟨solid_of_bare hbare, fun c hc => ?_⟩
  rw [mask_of_isBare (isBare_of_all hbare)] at hc
  exact (h c hc).2

theorem flat_quoted {t : List Char} (h : t.all isUnquoted = true) : Flat (quoted t) := by
  refine ⟨solid_quoted h, fun c hc => ?_⟩
  rw [mask_quoted h] at hc
  rcases List.mem_cons.1 hc with rfl | hc
  · decide
  · rcases List.mem_append.1 hc with hc | hc
    · rcases eq_of_mem_blanks hc with rfl | rfl <;> decide
    · rw [List.mem_singleton.1 hc]
      decide

end Masked

namespace Go

/-- The line of an import shows a character that is no blank first. -/
theorem exists_mask_line {i : Import} (h : i.WellFormed) :
    ∃ c cs, mask .go i.line.toList = c :: cs ∧ Text.isBlank c = false := by
  have hlead : i.lead.all isBareChar = true :=
    List.all_eq_true.2 fun c hc => (h.lead_char hc).2.1
  rw [Import.toList_line, (solid_of_bare hlead).mask_append, mask_quoted h.path.all_isUnquoted,
    mask_of_isBare (isBare_of_all hlead)]
  unfold Import.lead
  cases ha : i.alias? with
  | none => exact ⟨_, _, rfl, by decide⟩
  | some a =>
    obtain ⟨hne, hchars⟩ := h.alias_char ha
    obtain ⟨c, cs, hcs⟩ := List.exists_cons_of_ne_nil hne
    simp only [hcs]
    exact ⟨c, _, rfl, (hchars c (hcs ▸ List.mem_cons_self)).1⟩

theorem flat_line {i : Import} (h : i.WellFormed) : Flat i.line.toList := by
  rw [Import.toList_line]
  exact (flat_of_chars fun c hc => (h.lead_char hc).2).append (flat_quoted h.path.all_isUnquoted)

theorem flat_block {is : List Import} (h : ∀ i ∈ is, i.WellFormed) : Flat (blockText is) := by
  have hlines : Flat (is.flatMap fun i => '\t' :: i.line.toList ++ ['\n']) := by
    induction is with
    | nil => exact flat_of_chars fun c hc => absurd hc List.not_mem_nil
    | cons i is ih =>
      have htab : Flat ['\t'] := flat_of_chars (by decide)
      have hnewline : Flat ['\n'] := flat_of_chars (by decide)
      rw [List.flatMap_cons]
      exact ((htab.append (flat_line (h i List.mem_cons_self))).append hnewline).append
        (ih fun j hj => h j (List.mem_cons_of_mem i hj))
  have hnewline : Flat ['\n'] := flat_of_chars (by decide)
  exact hnewline.append hlines

end Go

end RpcBindings
