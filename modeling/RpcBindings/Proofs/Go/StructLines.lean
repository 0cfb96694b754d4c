import RpcBindings.Go.Struct
import RpcBindings.Proofs.Masked.Decoration
import RpcBindings.Proofs.Text.Layout

/-!
Lines of a struct.

A documentation text gets one comment marker, however many lines it has. Main statement: the lines of
a struct are its head, its rows and its brace, with comments between them, exactly when all other lines
of documentation are comments of their own and no row is broken (`Go.interspersed_structText_iff`).
-/

namespace RpcBindings

/-! ## Lines between others -/

/-- A list is another one with elements of a kind between those of the other. -/
inductive Interspersed {α : Type} (p : α → Bool) : List α → List α → Prop where
  | nil : Interspersed p [] []
  | keep {x : α} {kept all : List α} (h : Interspersed p kept all) :
      Interspersed p (x :: kept) (x :: all)
  | between {x : α} {kept all : List α} (hx : p x = true) (h : Interspersed p kept all) :
      Interspersed p kept (x :: all)

namespace Interspersed

variable {α : Type} {p : α → Bool}

theorem sublist {kept all : List α} (h : Interspersed p kept all) : kept.Sublist all := by
  induction h with
  | nil => exact .slnil
  | keep _ ih => exact .cons_cons _ ih
  | between _ _ ih => exact .cons _ ih

theorem prepend {extra kept all : List α} (hextra : ∀ x ∈ extra, p x = true)
    (h : Interspersed p kept all) : Interspersed p kept (extra ++ all) := by
  induction extra with
  | nil => exact h
  | cons x extra ih =>
    exact .between (hextra x List.mem_cons_self) (ih fun y hy => hextra y (List.mem_cons_of_mem x hy))

/-- A list of elements of another kind is what is left without those between them. -/
theorem filter_eq {kept all : List α} (h : Interspersed p kept all) (hkept : ∀ x ∈ kept, p x = false) :
    all.filter (!p ·) = kept := by
  induction h with
  | nil => rfl
  | keep _ ih =>
    rw [List.filter_cons_of_pos (by rw [hkept _ List.mem_cons_self]; rfl),
      ih fun y hy => hkept y (List.mem_cons_of_mem _ hy)]
  | between hx _ ih => rw [List.filter_cons_of_neg (by rw [hx]; exact Bool.false_ne_true), ih hkept]

/-- No element of another kind is between those that were kept. -/
theorem countP_eq {kept all : List α} (h : Interspersed p kept all) :
    all.countP (!p ·) = kept.countP (!p ·) := by
  induction h with
  | nil => rfl
  | keep _ ih => rw [List.countP_cons, List.countP_cons, ih]
  | between hx _ ih => rw [List.countP_cons_of_neg (by simp [hx]), ih]

theorem countP_groups (q : α → Bool) (groups : List (List α × α)) :
    (groups.flatMap fun g => g.1 ++ [g.2]).countP q =
      (groups.flatMap (·.1)).countP q + (groups.map (·.2)).countP q := by
  induction groups with
  | nil => rfl
  | cons g groups ih =>
    simp only [List.flatMap_cons, List.map_cons, List.countP_append, List.countP_cons,
      List.countP_nil, ih]
    omega

/-- The last elements of groups are interspersed with the others exactly when all others are of the
kind. -/
theorem groups_iff {groups : List (List α × α)} :
    Interspersed p (groups.map (·.2)) (groups.flatMap fun g => g.1 ++ [g.2]) ↔
      ∀ x ∈ groups.flatMap (·.1), p x = true := by
  constructor
  · intro h x hx
    have hcount := h.countP_eq
    rw [countP_groups] at hcount
    have hnone : (groups.flatMap (·.1)).countP (!p ·) = 0 := by omega
    simpa using List.countP_eq_zero.1 hnone x hx
  · intro h
    induction groups with
    | nil => exact .nil
    | cons g groups ih =>
      rw [List.flatMap_cons] at h
      rw [List.flatMap_cons, List.append_assoc]
      exact .prepend (fun x hx => h x (List.mem_append_left _ hx))
        (.keep (ih fun x hx => h x (List.mem_append_right _ hx)))

end Interspersed

namespace Go

open Text

/-! ## Comment lines -/

/-- What may stand before a comment on its line. -/
def isMargin (c : Char) : Bool :=
  c == ' ' || c == '\t' || c == '\r'

/-- A line that is a comment. -/
def isCommentLine (line : List Char) : Bool :=
  isComment (line.dropWhile isMargin)

/-- The lines of a documentation text behind its first one. -/
def laterLines (doc : String) : List (List Char) :=
  (lines (doc.toList ++ ['\n'])).tail

/-- The end of a line takes nothing away from what stands before the line's text. -/
theorem endLine_append (mark : List Char) {d : Char} (hd : d ≠ '\r') (a : List Char) :
    endLine (mark ++ d :: a).reverse = mark ++ d :: endLine a.reverse := by
  rcases List.eq_nil_or_concat' a with rfl | ⟨a, c, rfl⟩
  · rw [List.reverse_append, List.reverse_singleton, List.singleton_append, endLine]
    · simp [endLine]
    · exact fun run heq => hd (List.cons.inj heq).1
  · by_cases hc : c = '\r'
    · subst hc
      simp [endLine]
    · have hkeep (run : List Char) : endLine (c :: run) = (c :: run).reverse := by
        rw [endLine]
        exact fun run heq => hc (List.cons.inj heq).1
      simp [hkeep]

theorem isCommentLine_append {indent : List Char} (h : ∀ c ∈ indent, isMargin c = true)
    (text : List Char) : isCommentLine (indent ++ '/' :: '/' :: text) = true := by
  unfold isCommentLine
  rw [List.dropWhile_append_of_pos h]
  rfl

/-- A documentation text is a line comment behind its indentation, and its other lines as they are. -/
theorem lines_docText_singleton {indent : String} (h : '\n' ∉ indent.toList) (doc : String) :
    ∃ text, lines (docText indent [doc]).toList =
      (indent.toList ++ '/' :: '/' :: text) :: laterLines doc := by
  obtain ⟨a, b, hsplit, ha⟩ := List.eq_append_cons_of_mem
    (show '\n' ∈ doc.toList ++ ['\n'] from List.mem_append_right _ List.mem_cons_self)
  have hlater : laterLines doc = lines b := by
    unfold laterLines
    rw [hsplit, lines, linesAux_newline ha]
    rfl
  have htext : (docText indent [doc]).toList = (indent.toList ++ "// ".toList ++ a) ++ '\n' :: b := by
    rw [List.append_assoc, ← hsplit]
    simp [docText]
  have hmark : '\n' ∉ indent.toList ++ "// ".toList ++ a := by
    intro hmem
    rcases List.mem_append.1 hmem with hmem | hmem
    · rcases List.mem_append.1 hmem with hmem | hmem
      · exact h hmem
      · exact absurd hmem (by decide)
    · exact ha hmem
  refine ⟨' ' :: endLine a.reverse, ?_⟩
  rw [htext, lines, linesAux_newline hmark, List.append_nil, hlater]
  have hend := endLine_append (indent.toList ++ ['/', '/']) (show ' ' ≠ '\r' by decide) a
  simpa using hend

theorem docText_cons (indent doc : String) (docs : List String) :
    docText indent (doc :: docs) = docText indent [doc] ++ docText indent docs := by
  simp [docText]

/-- Documentation consists of whole lines. -/
theorem getLast?_docText {indent : String} {docs : List String} :
    ∀ c ∈ (docText indent docs).toList.getLast?, c = '\n' := by
  rcases List.eq_nil_or_concat' docs with rfl | ⟨docs, doc, rfl⟩
  · exact nofun
  · intro c hc
    have htext : (docText indent (docs ++ [doc])).toList =
        ((docText indent docs).toList ++ (indent ++ "// " ++ doc).toList) ++ ['\n'] := by
      simp [docText]
    rw [htext, List.getLast?_concat] at hc
    exact (Option.some.inj hc).symm

/-- Documentation is comments exactly when the later lines of its texts are. -/
theorem isCommentLine_docText_iff {indent : String} (h : ∀ c ∈ indent.toList, isMargin c = true)
    {docs : List String} :
    (∀ line ∈ lines (docText indent docs).toList, isCommentLine line = true) ↔
      ∀ doc ∈ docs, ∀ line ∈ laterLines doc, isCommentLine line = true := by
  induction docs with
  | nil => exact ⟨fun _ doc hdoc => absurd hdoc List.not_mem_nil,
      fun _ line hline => absurd hline List.not_mem_nil⟩
  | cons doc docs ih =>
    have hnewline : '\n' ∉ indent.toList := fun hmem => absurd (h _ hmem) (by decide)
    obtain ⟨text, hlines⟩ := lines_docText_singleton hnewline doc
    rw [docText_cons, String.toList_append, lines_append getLast?_docText, hlines,
      List.forall_mem_append, List.forall_mem_cons, List.forall_mem_cons, ih]
    exact and_congr_left fun _ => and_iff_right (isCommentLine_append h text)

/-! ## Structs -/

/-- A row of a struct without its line feed. -/
def FieldRow.line (nameWidth typeWidth : Nat) (r : FieldRow) : String :=
  "\t" ++ padTo nameWidth r.name ++ " " ++ padTo typeWidth r.type ++ " " ++ r.tag

/-- The row of a field of a record in the columns of its struct. -/
def rowLine (table : TypeTable) (r : Record) (f : RecordField) : String :=
  (FieldRow.ofField table f).line
    (columnWidth (r.fields.map fun f => (FieldRow.ofField table f).name))
    (columnWidth (r.fields.map fun f => (FieldRow.ofField table f).type))

/-- The head of a struct. -/
def headLine (r : Record) : String :=
  "type " ++ r.name ++ " struct \x7b"

/-- The lines of a struct without documentation: its head, a row for every field, and its brace. -/
def structLines (table : TypeTable) (r : Record) : List (List Char) :=
  (headLine r).toList :: r.fields.map (fun f => (rowLine table r f).toList) ++ [['\x7d']]

/-- The lines of a struct, each with the documentation above it. -/
def structGroups (table : TypeTable) (r : Record) : List (List (List Char) × List Char) :=
  (lines (docText "" r.docs).toList, (headLine r).toList) ::
    r.fields.map (fun f => (lines (docText "\t" f.docs).toList, (rowLine table r f).toList)) ++
      [([], ['\x7d'])]

/-- A line that does not end in a carriage return, below documentation. -/
theorem lines_docText_line {indent : String} {docs : List String} {line : List Char}
    (hend : line.getLast? ≠ some '\r') (h : '\n' ∉ line) (rest : List Char) :
    lines ((docText indent docs).toList ++ (line ++ '\n' :: rest)) =
      lines (docText indent docs).toList ++ [line] ++ lines rest := by
  have hline : endLine line.reverse = line := by
    rcases List.eq_nil_or_concat' line with rfl | ⟨mark, d, rfl⟩
    · rfl
    · rw [List.getLast?_concat] at hend
      exact endLine_append mark (fun hd => hend (congrArg some hd)) []
  have hfirst : lines (line ++ '\n' :: rest) = line :: lines rest := by
    rw [lines, linesAux_newline h, List.append_nil, hline]
  rw [lines_append getLast?_docText, hfirst, List.append_assoc]
  rfl

theorem getLast?_headLine (r : Record) : (headLine r).toList.getLast? = some '\x7b' := by
  unfold headLine
  rw [String.toList_append, List.getLast?_append_of_ne_nil _ (by decide)]
  rfl

theorem getLast?_rowLine (table : TypeTable) (r : Record) (f : RecordField) :
    (rowLine table r f).toList.getLast? = some '\x60' := by
  unfold rowLine FieldRow.line FieldRow.ofField
  simp only [String.toList_append]
  rw [← List.append_assoc, List.getLast?_append_of_ne_nil _ (by decide)]
  rfl

theorem lines_rows {table : TypeTable} {r : Record} {fields : List RecordField}
    (h : ∀ f ∈ fields, '\n' ∉ (rowLine table r f).toList) (rest : List Char) :
    lines ((String.join (fields.map fun f =>
        docText "\t" f.docs ++ rowLine table r f ++ "\n")).toList ++ rest) =
      (fields.map fun f => (lines (docText "\t" f.docs).toList, (rowLine table r f).toList)).flatMap
        (fun g => g.1 ++ [g.2]) ++ lines rest := by
  induction fields with
  | nil => rfl
  | cons f fields ih =>
    have hcons : (String.join ((f :: fields).map fun f =>
        docText "\t" f.docs ++ rowLine table r f ++ "\n")).toList ++ rest =
        (docText "\t" f.docs).toList ++ ((rowLine table r f).toList ++ '\n' ::
          ((String.join (fields.map fun f =>
            docText "\t" f.docs ++ rowLine table r f ++ "\n")).toList ++ rest)) := by
      simp
    rw [hcons, lines_docText_line (by rw [getLast?_rowLine]; decide) (h f List.mem_cons_self),
      ih fun g hg => h g (List.mem_cons_of_mem f hg), List.map_cons, List.flatMap_cons,
      ← List.append_assoc]

theorem structText_eq (table : TypeTable) (r : Record) :
    structText table r = docText "" r.docs ++ headLine r ++ "\n" ++
      String.join (r.fields.map fun f => docText "\t" f.docs ++ rowLine table r f ++ "\n") ++
      "\x7d" := by
  unfold structText rowLine FieldRow.text FieldRow.line headLine
  simp only [String.append_assoc]
  rfl

/-- A struct of unbroken lines has these lines, each below its documentation. -/
theorem lines_structText {table : TypeTable} {r : Record}
    (h : ∀ line ∈ structLines table r, '\n' ∉ line) :
    lines (structText table r).toList =
      (structGroups table r).flatMap fun g => g.1 ++ [g.2] := by
  have hhead : '\n' ∉ (headLine r).toList := h _ List.mem_cons_self
  have hrows : ∀ f ∈ r.fields, '\n' ∉ (rowLine table r f).toList := fun f hf =>
    h _ (List.mem_append_left _ (List.mem_cons_of_mem _ (List.mem_map_of_mem hf)))
  have htext : (structText table r).toList = (docText "" r.docs).toList ++
      ((headLine r).toList ++ '\n' :: ((String.join (r.fields.map fun f =>
        docText "\t" f.docs ++ rowLine table r f ++ "\n")).toList ++ ['\x7d'])) := by
    rw [structText_eq]
    simp
  rw [htext, lines_docText_line (by rw [getLast?_headLine]; decide) hhead, lines_rows hrows]
  unfold structGroups
  rw [List.cons_append, List.flatMap_cons, List.flatMap_append]
  rfl

theorem map_structGroups (table : TypeTable) (r : Record) :
    (structGroups table r).map (·.2) = structLines table r := by
  simp [structGroups, structLines]

/-- The lines of a struct are its head, its rows in order and its brace, with comments between them,
exactly when these lines are unbroken and every later line of a documentation text is a comment of its
own. -/
theorem interspersed_structText_iff (table : TypeTable) (r : Record) :
    Interspersed isCommentLine (structLines table r) (lines (structText table r).toList) ↔
      (∀ line ∈ structLines table r, '\n' ∉ line) ∧
      ∀ doc ∈ r.docs ++ r.fields.flatMap (·.docs), ∀ line ∈ laterLines doc,
        isCommentLine line = true := by
  have hmargin : ∀ c ∈ "".toList, isMargin c = true := nofun
  have htab : ∀ c ∈ "\t".toList, isMargin c = true := by decide
  -- kept lines are lines of the text, so they are unbroken in both directions
  have hunbroken (h : Interspersed isCommentLine (structLines table r)
      (lines (structText table r).toList)) : ∀ line ∈ structLines table r, '\n' ∉ line :=
    fun line hline => not_mem_lines (h.sublist.subset hline)
  have hdocs : (∀ line ∈ (structGroups table r).flatMap (·.1), isCommentLine line = true) ↔
      ∀ doc ∈ r.docs ++ r.fields.flatMap (·.docs), ∀ line ∈ laterLines doc,
        isCommentLine line = true := by
    have hfields : (∀ line ∈ (r.fields.map fun f => (lines (docText "\t" f.docs).toList,
        (rowLine table r f).toList)).flatMap (·.1), isCommentLine line = true) ↔
        ∀ doc ∈ r.fields.flatMap (·.docs), ∀ line ∈ laterLines doc, isCommentLine line = true := by
      rw [List.flatMap_map, List.forall_mem_flatMap, List.forall_mem_flatMap]
      exact forall₂_congr fun f _ => isCommentLine_docText_iff htab
    unfold structGroups
    rw [List.cons_append, List.flatMap_cons, List.flatMap_append, List.forall_mem_append,
      List.forall_mem_append, List.forall_mem_append, isCommentLine_docText_iff hmargin, hfields]
    exact and_congr_right fun _ => and_iff_left nofun
  constructor
  · intro h
    have hlines := hunbroken h
    rw [lines_structText hlines, ← map_structGroups, Interspersed.groups_iff, hdocs] at h
    exact ⟨hlines, h⟩
  · rintro ⟨hlines, h⟩
    rw [lines_structText hlines, ← map_structGroups, Interspersed.groups_iff, hdocs]
    exact h

/-- A record with a line feed in its documentation. -/
def brokenDocSchema : String :=
  "#[doc = \"a\\nfunc evil() \x7b\x7d\"]\npub struct A \x7b pub x: u8 \x7d\n"

/-- The second line of that documentation is a line of the struct that is no comment. -/
theorem brokenDocSchema_escapes : ∃ r, .found r ∈ Record.readAll brokenDocSchema ∧
    ¬Interspersed isCommentLine (structLines .standard r)
      (lines (structText .standard r).toList) := by
  have hrecords : Record.readAll brokenDocSchema =
      [.found ⟨"A", ["a\nfunc evil() \x7b\x7d"], [⟨"x", .scalar "u8", [], none⟩]⟩] := by
    decide +kernel
  refine ⟨_, hrecords ▸ List.mem_singleton_self _, fun h => ?_⟩
  exact absurd h.countP_eq (by decide +kernel)

end Go

end RpcBindings
