import RpcBindings.Proofs.Client.BlockShape
import RpcBindings.Proofs.Client.ImportReading

/-!
Texts whose imports are all called something.

An import is read between two quotes of one line: of a line of the text, or of what is left of one
behind the place where its clause begins. It is called nothing only when the text between the quotes
names no package and no alias stands before it, or when there is nothing between the quotes and the
alias names no package (`Import.nameless_line`). Main statement: no such import is read from a text in
which the quotes of every line stand around a path that names a package, behind a word, or in a
comment (`NamedLines.name_ne_empty`).
-/

namespace RpcBindings

open Masked

namespace Text

/-! ## Lines and where they stand -/

theorem exists_split_of_mem_linesAux {run cs l : List Char} (h : l ∈ linesAux run cs) :
    ∃ u v, run.reverse ++ cs = u ++ (l ++ v) ∧ ∀ c ∈ u.getLast?, c = '\n' := by
  induction cs generalizing run with
  | nil =>
    rw [linesAux] at h
    split at h
    · exact absurd h List.not_mem_nil
    · obtain rfl := List.mem_singleton.1 h
      exact ⟨[], [], by simp, by simp⟩
  | cons c cs ih =>
    rw [linesAux] at h
    split at h
    · rename_i hc
      rcases List.mem_cons.1 h with rfl | h
      · unfold endLine
        split
        · exact ⟨[], '\r' :: c :: cs, by simp, by simp⟩
        · exact ⟨[], c :: cs, rfl, by simp⟩
      · obtain ⟨u, v, hcs, hu⟩ := ih h
        refine ⟨run.reverse ++ c :: u, v, by simpa using hcs, fun d hd => ?_⟩
        rw [List.getLast?_append_of_ne_nil _ (List.cons_ne_nil c u)] at hd
        cases u with
        | nil => exact (Option.some.inj hd).symm.trans hc
        | cons e u => exact hu d (by rwa [List.getLast?_cons_cons] at hd)
    · obtain ⟨u, v, hcs, hu⟩ := ih h
      exact ⟨u, v, by simpa using hcs, hu⟩

/-- A line stands in its text, at its start or behind a line feed. -/
theorem exists_split_of_mem_lines {cs l : List Char} (h : l ∈ lines cs) :
    ∃ u v, cs = u ++ (l ++ v) ∧ ∀ c ∈ u.getLast?, c = '\n' :=
  exists_split_of_mem_linesAux h

/-- The last line of a text begins at its start or behind a line feed. -/
theorem exists_lastLine (cs : List Char) :
    ∃ before line, cs = before ++ line ∧ (∀ c ∈ before.getLast?, c = '\n') ∧ '\n' ∉ line := by
  by_cases h : '\n' ∈ cs
  · obtain ⟨line, before, hcs, hline⟩ := List.eq_append_cons_of_mem (List.mem_reverse.2 h)
    refine ⟨before.reverse ++ ['\n'], line.reverse, ?_, fun c hc => ?_, fun hmem => ?_⟩
    · rw [← List.reverse_reverse cs, hcs]
      simp
    · rw [List.getLast?_concat] at hc
      exact (Option.some.inj hc).symm
    · exact hline (List.mem_reverse.1 hmem)
  · exact ⟨[], cs, rfl, nofun, h⟩

theorem exists_beforeComment (cs : List Char) : ∃ v, cs = beforeComment cs ++ v := by
  induction cs with
  | nil => exact ⟨[], rfl⟩
  | cons c cs ih =>
    rw [beforeComment]
    split
    · exact ⟨c :: cs, rfl⟩
    · obtain ⟨v, hv⟩ := ih
      exact ⟨v, congrArg (c :: ·) hv⟩

/-- What is left of a line without its comment and the blanks around it stands in the line. -/
theorem exists_trim_beforeComment (l : List Char) : ∃ head tail,
    l = head ++ (trim (beforeComment l) ++ tail) ∧ allBlank head = true := by
  obtain ⟨v, hv⟩ := exists_beforeComment l
  obtain ⟨head, tail, htrim, hhead, -⟩ := exists_trim (beforeComment l)
  refine ⟨head, tail ++ v, ?_, hhead⟩
  conv => lhs; rw [hv, htrim]
  simp

theorem beforeComment_of_isComment {l : List Char} (h : isComment l = true) :
    beforeComment l = [] := by
  cases l with
  | nil => rfl
  | cons c l => rw [beforeComment, if_pos h]

theorem isComment_of_append {a b : List Char} (h : isComment (a ++ b) = true)
    (hlong : 2 ≤ a.length) : isComment a = true := by
  have hslashes : ['/', '/'] <+: a ++ b := List.isPrefixOf_iff_prefix.1 h
  exact List.isPrefixOf_iff_prefix.2
    (List.prefix_of_prefix_length_le hslashes (List.prefix_append a b) hlong)

/-- A character that is not blank stays at the end of a text without the blanks around it. -/
theorem exists_trim_concat {c : Char} (hc : isBlank c = false) (a : List Char) :
    ∃ u, trim (a ++ [c]) = u ++ [c] := by
  have hnot : allBlank (trimStart (a ++ [c])) = false := by
    refine Bool.eq_false_iff.2 fun hall => ?_
    obtain ⟨head, heq, hhead⟩ := exists_trimStart (a ++ [c])
    have hboth : allBlank (a ++ [c]) = true := heq ▸ allBlank_append.2 ⟨hhead, hall⟩
    rw [List.all_eq_true.1 hboth c (by simp)] at hc
    exact Bool.false_ne_true hc.symm
  obtain ⟨head, heq, -⟩ := exists_trimStart (a ++ [c])
  rcases List.eq_nil_or_concat (trimStart (a ++ [c])) with hnil | ⟨u, d, hu⟩
  · rw [hnil] at hnot
    exact absurd hnot (by decide)
  · rw [List.concat_eq_append] at hu
    have hlast := congrArg List.getLast? heq
    rw [hu, ← List.append_assoc, List.getLast?_concat, List.getLast?_concat] at hlast
    obtain rfl := Option.some.inj hlast
    exact ⟨u, by rw [trim, hu]; exact @trimEnd_append [] c rfl hc u⟩

/-! ## The quotes of a text -/

/-- Two texts are split alike where one character stands in both for the first time. -/
theorem append_cons_inj {c : Char} {a b a' b' : List Char} (ha : c ∉ a) (ha' : c ∉ a')
    (h : a ++ c :: b = a' ++ c :: b') : a = a' ∧ b = b' := by
  induction a generalizing a' with
  | nil =>
    cases a' with
    | nil => exact ⟨rfl, (List.cons.inj h).2⟩
    | cons d a' => exact absurd ((List.cons.inj h).1 ▸ List.mem_cons_self) ha'
  | cons e a ih =>
    cases a' with
    | nil => exact absurd ((List.cons.inj h).1 ▸ List.mem_cons_self) ha
    | cons d a' =>
      obtain ⟨rfl, hrest⟩ := List.cons.inj h
      obtain ⟨rfl, rfl⟩ := ih (fun hmem => ha (List.mem_cons_of_mem _ hmem))
        (fun hmem => ha' (List.mem_cons_of_mem _ hmem)) hrest
      exact ⟨rfl, rfl⟩

/-- The only two quotes of a text split it in one way. -/
theorem eq_of_two_quotes {a p b a' p' b' : List Char} (hquotes : '"' ∉ a' ++ p' ++ b')
    (h : a ++ '"' :: (p ++ '"' :: b) = a' ++ '"' :: (p' ++ '"' :: b')) :
    a = a' ∧ p = p' ∧ b = b' := by
  have hcount := congrArg (List.count '"') h
  have hnone := List.count_eq_zero.2 hquotes
  simp only [List.count_append, List.count_cons_self] at hcount hnone
  have hmem {t : List Char} (ht : t.count '"' = 0) : '"' ∉ t := List.count_eq_zero.1 ht
  obtain ⟨rfl, hrest⟩ := append_cons_inj (hmem (by omega)) (hmem (by omega)) h
  obtain ⟨rfl, rfl⟩ := append_cons_inj (hmem (by omega)) (hmem (by omega)) hrest
  exact ⟨rfl, rfl, rfl⟩

/-! ## Words between blanks -/

/-- A text is empty or ends in a blank. -/
def EndsInBlank (p : List Char) : Prop :=
  ∀ c ∈ p.getLast?, isBlank c = true

/-- Backwards from its end and without the blanks there a text begins with its last word. -/
theorem takeWhile_reverse_lastWord {p w b : List Char} (hp : EndsInBlank p)
    (hw : ∀ c ∈ w, isBlank c = false) (hne : w ≠ []) (hb : allBlank b = true) :
    ((trimEnd (p ++ (w ++ b))).reverse.takeWhile fun c => !isBlank c) = w.reverse := by
  obtain ⟨c, w, rfl⟩ := List.exists_cons_of_ne_nil hne
  have hnot : allBlank (c :: w) = false := by
    unfold allBlank
    rw [List.all_cons, hw c List.mem_cons_self, Bool.false_and]
  have hend : trimEnd (c :: w) = c :: w := by
    have := trim_of_not_isBlank hw
    rwa [trim, trimStart_of_not_isBlank hw] at this
  have hbefore : p.reverse.takeWhile (fun d => !isBlank d) = [] := by
    rcases List.eq_nil_or_concat p with rfl | ⟨p, d, rfl⟩
    · rfl
    · rw [List.concat_eq_append, List.reverse_append]
      have hd : isBlank d = true := hp d (by simp)
      exact List.takeWhile_cons_of_neg (by simp [hd])
  rw [← List.append_assoc, trimEnd_append_blank hb, trimEnd_append_of_not_allBlank hnot, hend,
    List.reverse_append, List.takeWhile_append_of_pos, hbefore, List.append_nil]
  intro d hd
  rw [hw d (List.mem_reverse.1 hd)]
  rfl

/-- The last word of a text stands between its last blanks in one way. -/
theorem lastWord_inj {p w b p' w' b' : List Char} (hp : EndsInBlank p) (hp' : EndsInBlank p')
    (hw : ∀ c ∈ w, isBlank c = false) (hw' : ∀ c ∈ w', isBlank c = false) (hne : w ≠ [])
    (hne' : w' ≠ []) (hb : allBlank b = true) (hb' : allBlank b' = true)
    (h : p ++ (w ++ b) = p' ++ (w' ++ b')) : w = w' := by
  have hleft := takeWhile_reverse_lastWord hp hw hne hb
  rw [h, takeWhile_reverse_lastWord hp' hw' hne' hb'] at hleft
  exact (List.reverse_inj.1 hleft).symm

end Text

namespace Go

/-! ## Imports that are called nothing -/

theorem Import.exists_of_ofLine? {l : List Char} {i : Import} (h : Import.ofLine? l = some i) :
    ∃ front path, l = front ++ quoted path ∧ i.path = .ofList path ∧
      (∀ c ∈ path, Text.isBlank c = false) ∧
      ((front = [] ∧ i.alias? = none) ∨ ∃ name blank, front = name ++ [blank] ∧
        Text.isBlank blank = true ∧ i.alias? = some (.ofList (Text.trim name))) := by
  unfold ofLine? at h
  split at h
  · rename_i name text hsplit
    obtain ⟨path, hpath, rfl⟩ := Option.map_eq_some_iff.1 h
    obtain rfl := unquote?_eq_some_iff.1 hpath
    obtain ⟨parts, hparts, heq⟩ := Option.map_eq_some_iff.1 hsplit
    obtain ⟨rfl, hquoted⟩ := Prod.mk.inj heq
    obtain ⟨blank, hreverse, hblank, hnot⟩ := Text.splitAtBlank?_eq_some hparts
    refine ⟨parts.2.reverse ++ [blank], path, ?_, rfl, fun c hc => hnot c ?_,
      .inr ⟨_, blank, rfl, hblank, rfl⟩⟩
    · rw [← List.reverse_reverse l, hreverse, List.reverse_append, List.reverse_cons, hquoted]
    · rw [← List.mem_reverse, hquoted]
      exact List.mem_cons_of_mem _ (List.mem_append_left _ hc)
  · rename_i hsplit
    obtain ⟨path, hpath, rfl⟩ := Option.map_eq_some_iff.1 h
    obtain rfl := unquote?_eq_some_iff.1 hpath
    have hnot := Text.splitAtBlank?_eq_none_iff.1 (Option.map_eq_none_iff.1 hsplit)
    exact ⟨[], path, rfl, rfl, fun c hc => hnot c (List.mem_reverse.2
      (List.mem_cons_of_mem _ (List.mem_append_left _ hc))), .inl ⟨rfl, rfl⟩⟩

/-- A spec has an alias and a path, both not empty, or it is a path without blanks. -/
theorem Import.ofSpec_cases (spec : String) :
    (∃ a, (ofSpec spec).alias? = some a ∧ a.toList ≠ [] ∧ (ofSpec spec).path.toList ≠ []) ∨
      ofSpec spec = ⟨none, .ofList (Text.trim spec.toList)⟩ ∧
        ∀ c ∈ Text.trim spec.toList, Text.isBlank c = false := by
  unfold ofSpec
  simp only
  split
  · rename_i name path hsplit
    obtain ⟨blank, htrim, hblank, hname⟩ := Text.splitAtBlank?_eq_some hsplit
    refine .inl ⟨_, rfl, ?_, ?_⟩ <;> rw [String.toList_ofList]
    · rintro rfl
      rw [Text.not_isBlank_of_trim htrim] at hblank
      exact Bool.false_ne_true hblank
    · intro hpath
      obtain ⟨head, tail, heq, hhead, htail⟩ := Text.exists_trim path
      rw [hpath, List.nil_append] at heq
      have hrest : Text.allBlank (blank :: path) = true := by
        have hboth := Text.allBlank_append.2 ⟨hhead, htail⟩
        rw [← heq] at hboth
        unfold Text.allBlank at hboth ⊢
        rw [List.all_cons, hblank, hboth, Bool.and_self]
      -- such blanks would have been trimmed
      have hagain := Text.trim_trim spec.toList
      rw [htrim, Text.trim_append_blank hrest, Text.trim_of_not_isBlank hname] at hagain
      exact absurd (congrArg List.length hagain) (by simp)
  · rename_i hsplit
    exact .inr ⟨rfl, Text.splitAtBlank?_eq_none_iff.1 hsplit⟩

/-- A spec is called nothing only when it has no alias and names no package. -/
theorem Import.packageOf_of_name_ofSpec {spec : String} (h : (ofSpec spec).name = "") :
    (∀ c ∈ Text.trim spec.toList, Text.isBlank c = false) ∧
      packageOf (.ofList (Text.trim spec.toList)) = "" := by
  obtain ⟨a, ha, hne, -⟩ | ⟨hspec, hnot⟩ := Import.ofSpec_cases spec
  · rw [name, ha, Option.getD_some] at h
    exact absurd (by rw [h]; rfl) hne
  · rw [hspec, name, Option.getD_none] at h
    exact ⟨hnot, h⟩

theorem getLast?_of_endsIn_comma {t element : List Char} {front? : Option (List Char)}
    (h : EndsIn (t ++ [',']) front? element) : element.getLast? = some ',' := by
  obtain ⟨-, heq⟩ := h
  have hlast := congrArg List.getLast? heq
  rw [List.getLast?_concat] at hlast
  rcases List.eq_nil_or_concat element with rfl | ⟨e, c, rfl⟩
  · cases front? with
    | none => cases hlast
    | some front => simp at hlast
  · rw [List.concat_eq_append, ← List.append_assoc, List.getLast?_concat] at hlast
    rw [List.concat_eq_append, List.getLast?_concat, hlast]

/-- A version does not end in a comma, for behind its first letter it consists of digits. -/
theorem not_isVersion_concat_comma (v : List Char) : ¬Import.isVersion (v ++ [',']) = true := by
  intro h
  match v with
  | [] => exact absurd h (by decide)
  | c :: v =>
    unfold Import.isVersion at h
    split at h
    · rename_i digits heq
      obtain rfl := (List.cons.inj heq).2
      have hall : (v ++ [',']).all Char.isDigit = true := (Bool.and_eq_true_iff.1 h).2
      rw [List.all_append, Bool.and_eq_true] at hall
      exact absurd hall.2 (by decide)
    · exact absurd h Bool.false_ne_true

/-- A path that ends in a comma names a package. -/
theorem Import.packageOf_concat_comma (t : List Char) : packageOf (.ofList (t ++ [','])) ≠ "" := by
  intro hempty
  have hcalled : Called ⟨none, .ofList (t ++ [','])⟩ "" := by
    rw [called_iff, Import.name, Option.getD_none, hempty]
  generalize hname : "" = name at hcalled
  cases hcalled with
  | @byElement _ front? element ends plain =>
    rw [String.toList_ofList] at ends
    have hnil : element = [] := by
      rw [← String.toList_ofList (l := element), ← hname]
      rfl
    cases hnil ▸ getLast?_of_endsIn_comma ends
  | @byPrevious _ front version element front? ends versioned before =>
    rw [String.toList_ofList] at ends
    obtain ⟨v, rfl⟩ := List.getLast?_eq_some_iff.1 (getLast?_of_endsIn_comma ends)
    exact not_isVersion_concat_comma v versioned

/-- Between which quotes an import stands that is called nothing. -/
theorem Import.nameless_line {l : List Char} {i : Import}
    (hi : Import.ofLine? (Text.trim l) = some i) (hname : (ofSpec i.spec).name = "") :
    ∃ front path, Text.trim l = front ++ quoted path ∧
      ((front = [] ∧ packageOf (.ofList path) = "") ∨
        path = [] ∧ ∃ name blank, front = name ++ [blank] ∧ name ≠ [] ∧
          packageOf (.ofList (Text.trim name)) = "") := by
  obtain ⟨front, path, hl, hpath, hnot, ⟨rfl, halias⟩ | ⟨name, blank, rfl, hblank, halias⟩⟩ :=
    Import.exists_of_ofLine? hi
  · have hspec : i.spec.toList = path := by
      unfold spec
      rw [halias, hpath, String.toList_ofList]
    have hempty := (Import.packageOf_of_name_ofSpec hname).2
    rw [hspec, Text.trim_of_not_isBlank hnot] at hempty
    exact ⟨[], path, hl, .inl ⟨rfl, hempty⟩⟩
  · -- a trimmed line begins with no blank
    have hfirst : ∃ c cs, name = c :: cs ∧ Text.isBlank c = false := by
      cases name with
      | nil =>
        rw [Text.not_isBlank_of_trim hl] at hblank
        exact absurd hblank Bool.false_ne_true
      | cons c cs => exact ⟨c, cs, rfl, Text.not_isBlank_of_trim hl⟩
    obtain ⟨c, cs, hcs, hc⟩ := hfirst
    have hspec : i.spec.toList = Text.trim name ++ ' ' :: path := by
      unfold spec
      rw [halias, hpath]
      simp [String.toList_append]
    obtain ⟨hspecNot, hempty⟩ := Import.packageOf_of_name_ofSpec hname
    have hnamed : ∃ rest, Text.trim name = c :: rest := by
      refine ⟨Text.trimEnd cs, ?_⟩
      have hstart : Text.trimStart (c :: cs) = c :: cs :=
        @Text.trimStart_append [] c rfl hc cs
      rw [hcs, Text.trim, hstart, Text.trimEnd_cons hc]
    obtain ⟨rest, hrest⟩ := hnamed
    rw [hspec] at hspecNot hempty
    cases path with
    | nil =>
      rw [Text.trim_append_blank (b := [' ']) (by decide), Text.trim_trim] at hempty
      exact ⟨_, [], hl, .inr ⟨rfl, name, blank, rfl, hcs ▸ List.cons_ne_nil c cs, hempty⟩⟩
    | cons d ds =>
      -- both ends of such a spec stay, and the space between them does
      obtain ⟨init, e, hde⟩ : ∃ init e, d :: ds = init ++ [e] :=
        ⟨_, _, (List.dropLast_concat_getLast (List.cons_ne_nil d ds)).symm⟩
      have he : Text.isBlank e = false := hnot e (hde ▸ List.mem_append_right _ List.mem_cons_self)
      have hends := @Text.trim_of_ends c e (rest ++ ' ' :: init) hc he
      have hshape : Text.trim name ++ ' ' :: d :: ds = c :: (rest ++ ' ' :: init ++ [e]) := by
        rw [hrest, hde]
        simp
      rw [hshape, hends] at hspecNot
      exact absurd (hspecNot ' ' (by simp)) (by decide)

end Go

namespace Masked

variable {m : Masked}

/-! ## Where clauses begin -/

/-- The clause behind a keyword that begins its line holds an import. -/
def ClauseHolds (m : Masked) (k : Nat) (i : Go.Import) : Prop :=
  m.beginsLine k = true ∧ ∃ clause text, m.clauseAfter? (k + "import".length) = some clause ∧
    Text.cut? clause.start clause.stop m.source = some text ∧ i ∈ clauseImports text

/-- An import is read from a clause. -/
theorem exists_clause_of_mem {places : List Nat} {start : Nat} {is : List Go.Import} {i : Go.Import}
    (h : m.importsFrom? places start = some is) (hi : i ∈ is) :
    ∃ k ∈ places, m.ClauseHolds k i := by
  induction places generalizing start is with
  | nil =>
    rw [← Option.some.inj h] at hi
    exact absurd hi List.not_mem_nil
  | cons p places ih =>
    have later {start : Nat} {is : List Go.Import} (h : m.importsFrom? places start = some is)
        (hi : i ∈ is) : ∃ k ∈ p :: places, m.ClauseHolds k i := by
      obtain ⟨k, hk, hholds⟩ := ih h hi
      exact ⟨k, List.mem_cons_of_mem p hk, hholds⟩
    rw [importsFrom?] at h
    split at h
    · exact later h hi
    · simp only at h
      split at h
      · rename_i hbegins
        split at h
        · rw [← Option.some.inj h] at hi
          exact absurd hi List.not_mem_nil
        · rename_i clause hclause
          split at h
          · cases h
          · rename_i text htext
            obtain ⟨is', his', rfl⟩ := Option.map_eq_some_iff.1 h
            rcases List.mem_append.1 hi with hi | hi
            · exact ⟨p, List.mem_cons_self, hbegins, clause, text, hclause, htext, hi⟩
            · exact later his' hi
      · exact later h hi

/-- A clause begins at the offset. -/
def ClauseAt (m : Masked) (start : Nat) : Prop :=
  ∃ k ∈ m.wordStarts "import", m.beginsLine k = true ∧ ∃ clause,
    m.clauseAfter? (k + "import".length) = some clause ∧ clause.start = start

/-- What stands before a word that begins its line ends in a blank. -/
theorem endsInBlank_of_beginsLine {y z : List Char} (hcode : m.code = y ++ z)
    (hline : m.beginsLine (Text.byteLength y) = true) : Text.EndsInBlank y := by
  obtain ⟨before, line, rfl, hbefore, hnewline⟩ := Text.exists_lastLine y
  rw [List.append_assoc] at hcode
  have hfrom : m.CodeFrom (Text.byteLength before) (line ++ z) := ⟨before, hcode, rfl⟩
  have hstart : m.IsLineStart (Text.byteLength before) := by
    rcases List.eq_nil_or_concat before with rfl | ⟨b, c, rfl⟩
    · exact isLineStart_zero m
    · rw [List.concat_eq_append] at hcode hbefore ⊢
      obtain rfl := hbefore c (by simp)
      have hfeed : m.CodeFrom (Text.byteLength b) ('\n' :: (line ++ z)) :=
        ⟨b, by rw [hcode]; simp, rfl⟩
      rw [Text.byteLength_append]
      exact hfeed.isLineStart
  have hsame := hfrom.lineStart_add fun hmem =>
    absurd (bne_newline_of_mem_bytes hnewline _ hmem) (by simp)
  rw [Text.byteLength_append] at hline
  unfold beginsLine Masked.isBlank at hline
  rw [hsame, hstart.lineStart_eq, hfrom.codeSlice] at hline
  intro c hc
  cases line with
  | nil =>
    rw [List.append_nil] at hc
    rw [hbefore c hc]
    exact Text.isBlank_newline
  | cons d line =>
    rw [List.getLast?_append_of_ne_nil _ (List.cons_ne_nil d line)] at hc
    exact List.all_eq_true.1 hline c (List.mem_of_getLast? hc)

/-- The code before a clause ends in a parenthesis, or in the keyword and the blanks behind it. -/
theorem ClauseAt.code {p q : List Char} (hcode : m.code = p ++ q)
    (h : m.ClauseAt (Text.byteLength p)) :
    p.getLast? = some '(' ∨ (∃ c rest, q = c :: rest ∧ Text.isBlank c = false) ∧
      ∃ y blank, p = y ++ ("import".toList ++ blank) ∧ Text.EndsInBlank y ∧
        Text.allBlank blank = true := by
  -- two beginnings of the code are one when they are equally long
  have hunique {a b : List Char} (hab : m.code = a ++ b)
      (hlen : Text.byteLength a = Text.byteLength p) : a = p ∧ b = q := by
    obtain ⟨mid, rfl, hmid, -⟩ := Text.exists_split_of_le hab hcode (Nat.le_of_eq hlen)
    rw [Text.byteLength_append] at hlen
    obtain rfl := @Text.byteLength_eq_zero mid (by omega)
    exact ⟨(List.append_nil a).symm, hmid⟩
  obtain ⟨k, hk, hline, clause, hclause, hstart⟩ := h
  unfold clauseAfter? at hclause
  split at hclause
  · cases hclause
  · rename_i start hskip
    split at hclause
    · rename_i hparen
      obtain ⟨stop, -, rfl⟩ := Option.map_eq_some_iff.1 hclause
      have hbyte := hasChar_iff.1 hparen
      rw [m.bytes_eq] at hbyte
      obtain ⟨x, c, y, hx, rfl, hc, hbyte⟩ := Text.exists_split_of_ascii hbyte (by decide)
      obtain rfl := Text.eq_of_toUInt8_eq hc (by decide) hbyte
      have hopened : m.code = x ++ ['('] ++ y := by
        rw [hx]
        simp
      obtain ⟨rfl, -⟩ := hunique hopened (by
        rw [Text.byteLength_append, ← hstart]
        rfl)
      exact .inl List.getLast?_concat
    · obtain rfl := Option.some.inj hclause
      obtain ⟨a, blank, c, rest, hsplit, ha, hblank, hc, rfl⟩ := skipBlank?_eq_some hskip
      rw [← List.append_assoc] at hsplit
      obtain ⟨rfl, rfl⟩ := hunique hsplit (by rw [Text.byteLength_append, ha, ← hstart])
      refine .inr ⟨⟨c, rest, rfl, hc⟩, ?_⟩
      have hbyte : m.bytes[k]? = some 'i'.toUInt8 :=
        getElem?_of_wordAt (k := 0) (mem_wordStarts.1 hk).2 rfl
      rw [m.bytes_eq] at hbyte
      obtain ⟨y, d, z, hy, rfl, -, -⟩ := Text.exists_split_of_ascii hbyte (by decide)
      obtain ⟨z', hz, -, -⟩ := exists_code_of_wordAt (by decide) hy (mem_wordStarts.1 hk).2
      rw [hz, ← List.append_assoc] at hy
      have hkeyword : y ++ "import".toList = a := by
        rw [List.append_assoc] at hsplit
        obtain ⟨mid, hmid, -, -⟩ := Text.exists_split_of_le hy hsplit (by
          rw [Text.byteLength_append, ha]
          exact Nat.le_refl _)
        have hlen := congrArg Text.byteLength hmid
        rw [Text.byteLength_append, Text.byteLength_append, ha] at hlen
        have : Text.byteLength "import".toList = "import".length := by decide
        obtain rfl := @Text.byteLength_eq_zero mid (by omega)
        rw [hmid, List.append_nil]
      rw [List.append_assoc] at hy
      exact ⟨y, blank, by rw [← hkeyword, List.append_assoc], endsInBlank_of_beginsLine hy hline,
        hblank⟩

/-- Where an import of a text stands: in what is left of a line without its comment and the blanks
around it. It is a line of the text, or the part of one that a clause begins with. -/
theorem exists_line_of_mem_imports? {t : List Char} {is : List Go.Import} {i : Go.Import}
    (his : (ofSource .go t).imports? = some is) (hi : i ∈ is) : ∃ before pre l post,
      t = before ++ (pre ++ (l ++ post)) ∧ (∀ c ∈ before.getLast?, c = '\n') ∧ '\n' ∉ pre ∧
        '\n' ∉ l ∧ Go.Import.ofLine? (Text.trim (Text.beforeComment l)) = some i ∧
        (pre = [] ∨ (ofSource .go t).ClauseAt (Text.byteLength (before ++ pre))) := by
  obtain ⟨k, hk, hbegins, clause, text, hclause, htext, hheld⟩ := exists_clause_of_mem his hi
  obtain ⟨a, b, ht, ha, -⟩ := Text.cut?_eq_some_iff.1 htext
  obtain ⟨l, hl, hread⟩ := List.mem_filterMap.1 hheld
  obtain ⟨u, v, rfl, hu⟩ := Text.exists_split_of_mem_lines hl
  have hnewline : '\n' ∉ l := Text.not_mem_lines hl
  replace ht : t = a ++ (u ++ (l ++ v) ++ b) := ht
  rcases List.eq_nil_or_concat u with rfl | ⟨u, c, rfl⟩
  · obtain ⟨before, pre, rfl, hbefore, hpre⟩ := Text.exists_lastLine a
    refine ⟨before, pre, l, v ++ b, ?_, hbefore, hpre, hnewline, hread,
      .inr ⟨k, hk, hbegins, clause, hclause, ha.symm⟩⟩
    rw [ht]
    simp
  · rw [List.concat_eq_append] at hu ht
    refine ⟨a ++ (u ++ [c]), [], l, v ++ b, ?_, fun d hd => ?_, List.not_mem_nil, hnewline, hread,
      .inl rfl⟩
    · rw [ht]
      simp
    · rw [← List.append_assoc, List.getLast?_concat] at hd
      exact Option.some.inj hd ▸ hu c (by simp)

/-! ## Quotes of lines -/

/-- A part of a line that ends in a word and a space, so that no clause begins between the word and
what follows. -/
structure EndsInWord (front word : List Char) : Prop where
  split : ∃ lead blank, front = lead ++ blank :: (word ++ [' ']) ∧ Text.isBlank blank = true
  bare : isBare front = true
  letters : ∀ c ∈ word, Text.isBlank c = false
  nonempty : word ≠ []
  keyword : word ≠ "import".toList
  paren : word.getLast? ≠ some '('

/-- How quotes can stand in a line of a text, behind what is before the line, if all that is read
between them is called something: there are no two of them, they stand around a path that names a
package, they stand behind a word, or the line is a comment. -/
inductive NamedQuotes (before : List Char) : List Char → Prop
  | few {line : List Char} (count : line.count '"' ≤ 1) : NamedQuotes before line
  | package {front path rest : List Char} (quotes : '"' ∉ front ++ path ++ rest)
      (named : Go.Import.packageOf (.ofList path) ≠ "") :
      NamedQuotes before (front ++ '"' :: (path ++ '"' :: rest))
  | behindWord {front word path rest : List Char} (solid : Solid before)
      (ends : EndsInWord front word) (quotes : '"' ∉ front ++ path ++ rest)
      (named : path ≠ [] ∨ word.getLast? = some ',') :
      NamedQuotes before (front ++ '"' :: (path ++ '"' :: rest))
  | comment {line : List Char} (solid : Solid before) (comment : Text.isComment line = true) :
      NamedQuotes before line

theorem NamedQuotes.prepend {a before line : List Char} (h : NamedQuotes before line)
    (ha : Solid a) : NamedQuotes (a ++ before) line := by
  cases h with
  | few hcount => exact .few hcount
  | package hquotes hnamed => exact .package hquotes hnamed
  | behindWord hsolid hends hquotes hnamed =>
    exact .behindWord (ha.append hsolid) hends hquotes hnamed
  | comment hsolid hcomment => exact .comment (ha.append hsolid) hcomment

/-- Whole lines in whose quotes all that is read is called something. -/
structure NamedLines (t : List Char) : Prop extends SolidLines t where
  line : ∀ before line rest, t = before ++ (line ++ '\n' :: rest) →
    (∀ c ∈ before.getLast?, c = '\n') → '\n' ∉ line → NamedQuotes before line

variable {before pre l post front path rest t : List Char} {i : Go.Import}

theorem EndsInWord.exists_not_isBlank {word : List Char} (h : EndsInWord front word) :
    ∃ c ∈ front, Text.isBlank c = false := by
  obtain ⟨lead, blank, rfl, -⟩ := h.split
  obtain ⟨c, cs, rfl⟩ := List.exists_cons_of_ne_nil h.nonempty
  exact ⟨c, by simp, h.letters c List.mem_cons_self⟩

/-- No clause begins where only blanks follow up to a quote behind a word. -/
theorem EndsInWord.not_clauseAt {head word behind : List Char} (h : EndsInWord front word)
    (hsolid : Solid before) (ht : t = before ++ (front ++ behind)) (hpre : pre ++ head = front)
    (hhead : Text.allBlank head = true) :
    ¬(ofSource .go t).ClauseAt (Text.byteLength (before ++ pre)) := by
  intro hclause
  obtain ⟨lead, blank, hfront, hblank⟩ := h.split
  have hmask : mask .go t = mask .go before ++ pre ++ (head ++ mask .go behind) := by
    have hslash : front.getLast? = some '/' → Detached behind := fun hslash => by
      rw [hfront, ← List.cons_append, ← List.append_assoc, List.getLast?_concat] at hslash
      exact absurd hslash (by decide)
    rw [ht, hsolid.mask_append, mask_append (closed_of_isBare h.bare) hslash,
      mask_of_isBare h.bare, ← hpre]
    simp only [List.append_assoc]
  have hlen : Text.byteLength (before ++ pre) = Text.byteLength (mask .go before ++ pre) := by
    rw [Text.byteLength_append, Text.byteLength_append, byteLength_mask hsolid.closed]
  rw [hlen] at hclause
  obtain hparen | ⟨-, y, gap, hy, hyblank, hgap⟩ := hclause.code hmask
  · -- without the blanks behind it the part ends in its word, which ends in no parenthesis
    obtain ⟨w, c, rfl⟩ : ∃ w c, word = w ++ [c] :=
      ⟨_, _, (List.dropLast_concat_getLast h.nonempty).symm⟩
    have hc : Text.isBlank c = false := h.letters c (by simp)
    have hshape : pre ++ head = lead ++ blank :: w ++ c :: [' '] := by
      rw [hpre, hfront]
      simp
    rcases List.eq_nil_or_concat pre with rfl | ⟨p, d, rfl⟩
    · have hmem : c ∈ head := by
        rw [show head = _ from hshape]
        simp
      rw [List.all_eq_true.1 hhead c hmem] at hc
      exact Bool.false_ne_true hc.symm
    · rw [List.concat_eq_append, ← List.append_assoc, List.getLast?_concat] at hparen
      obtain rfl := Option.some.inj hparen
      have htrim := @Text.trimEnd_append [' '] c (by decide) hc (lead ++ blank :: w)
      rw [← hshape, List.concat_eq_append, List.append_assoc, List.singleton_append,
        Text.trimEnd_append hhead (by decide)] at htrim
      have hlast := congrArg List.getLast? htrim
      rw [List.getLast?_concat, List.getLast?_concat] at hlast
      exact h.paren (by rw [List.getLast?_concat, hlast])
  · -- the last word of the part is not the keyword
    have hwords : y ++ ("import".toList ++ (gap ++ head)) =
        mask .go before ++ lead ++ [blank] ++ (word ++ [' ']) := by
      have hsplit := congrArg (· ++ head) hy
      simp only [List.append_assoc, hpre, hfront] at hsplit
      rw [List.append_assoc, List.append_assoc, List.singleton_append, hsplit]
    refine h.keyword (Text.lastWord_inj hyblank (fun c hc => ?_) (by decide) h.letters (by decide)
      h.nonempty (Text.allBlank_append.2 ⟨hgap, hhead⟩) (by decide) hwords).symm
    rw [List.getLast?_concat] at hc
    exact Option.some.inj hc ▸ hblank

/-- No clause begins behind the start of a comment and before its end. -/
theorem not_clauseAt_comment {line : List Char} (hsolid : Solid before)
    (hhidden : Hidden (line ++ ['\n'])) (ht : t = before ++ (line ++ '\n' :: rest))
    (hline : line = pre ++ post) (hpre : pre ≠ []) :
    ¬(ofSource .go t).ClauseAt (Text.byteLength (before ++ pre)) := by
  intro hclause
  have hmask : mask .go t = mask .go before ++ (mask .go (line ++ ['\n']) ++ mask .go rest) := by
    rw [ht, hsolid.mask_append, ← hhidden.toSolid.mask_append, List.append_assoc,
      List.singleton_append]
  have hsize : Text.byteLength (mask .go (line ++ ['\n'])) =
      Text.byteLength pre + (Text.byteLength post + 1) := by
    rw [byteLength_mask hhidden.closed, hline, List.append_assoc, Text.byteLength_append,
      Text.byteLength_append]
    rfl
  have hblank := hhidden.blank
  generalize mask .go (line ++ ['\n']) = hidden at hmask hsize hblank
  have hnarrow {cs : List Char} (h : ∀ c ∈ cs, c = ' ' ∨ c = '\n') :
      Text.byteLength cs = cs.length := Text.byteLength_of_narrow fun c hc => by
    rcases h c hc with rfl | rfl <;> rfl
  rw [hnarrow hblank] at hsize
  -- the code before the offset and behind it
  have hcode : mask .go t = mask .go before ++ hidden.take (Text.byteLength pre) ++
      (hidden.drop (Text.byteLength pre) ++ mask .go rest) := by
    rw [hmask, List.append_assoc, ← List.append_assoc (hidden.take _), List.take_append_drop]
  have htake : ∀ c ∈ hidden.take (Text.byteLength pre), c = ' ' ∨ c = '\n' := fun c hc =>
    hblank c (List.mem_of_mem_take hc)
  have hlen : Text.byteLength (before ++ pre) =
      Text.byteLength (mask .go before ++ hidden.take (Text.byteLength pre)) := by
    rw [Text.byteLength_append, Text.byteLength_append, byteLength_mask hsolid.closed,
      hnarrow htake, List.length_take]
    omega
  have hpos : 0 < Text.byteLength pre :=
    Nat.pos_of_ne_zero fun hzero => hpre (Text.byteLength_eq_zero hzero)
  rw [hlen] at hclause
  obtain hparen | ⟨⟨c, cs, hc, hcblank⟩, -⟩ := hclause.code hcode
  · rw [List.getLast?_append_of_ne_nil _ fun hnil => by
      have := congrArg List.length hnil
      rw [List.length_take, List.length_nil] at this
      omega] at hparen
    rcases htake _ (List.mem_of_getLast? hparen) with heq | heq <;> exact absurd heq (by decide)
  · cases hdrop : hidden.drop (Text.byteLength pre) with
    | nil =>
      have := congrArg List.length hdrop
      rw [List.length_drop, List.length_nil] at this
      omega
    | cons d ds =>
      rw [hdrop] at hc
      obtain rfl := (List.cons.inj hc).1
      have hmem : d ∈ hidden := List.mem_of_mem_drop (hdrop ▸ List.mem_cons_self)
      rcases hblank d hmem with rfl | rfl <;> exact absurd hcblank (by decide)

/-- What is read between two quotes of such a line is called something. -/
theorem NamedQuotes.name_ne_empty {line : List Char} (h : NamedQuotes before line)
    (ht : t = before ++ (line ++ '\n' :: rest)) (hnewline : '\n' ∉ line)
    (hline : line = pre ++ (l ++ post))
    (hread : Go.Import.ofLine? (Text.trim (Text.beforeComment l)) = some i)
    (hpre : pre = [] ∨ (ofSource .go t).ClauseAt (Text.byteLength (before ++ pre))) :
    (Go.Import.ofSpec i.spec).name ≠ "" := by
  intro hempty
  obtain ⟨front, path, htrim, hnameless⟩ := Go.Import.nameless_line hread hempty
  obtain ⟨head, tail, hl, hhead⟩ := Text.exists_trim_beforeComment l
  -- the two quotes of the line
  have hquotes : line = pre ++ head ++ front ++ '"' :: (path ++ '"' :: (tail ++ post)) := by
    rw [hline, hl, htrim]
    simp [quoted]
  cases h with
  | few hcount =>
    rw [hquotes] at hcount
    simp only [List.count_append, List.count_cons_self] at hcount
    omega
  | package hnone hnamed =>
    obtain ⟨-, rfl, -⟩ := Text.eq_of_two_quotes hnone hquotes.symm
    rcases hnameless with ⟨-, hpackage⟩ | ⟨rfl, -⟩
    · exact hnamed hpackage
    · exact hnamed rfl
  | behindWord hsolid hends hnone hnamed =>
    obtain ⟨hfront, rfl, -⟩ := Text.eq_of_two_quotes hnone hquotes.symm
    rcases hnameless with ⟨rfl, -⟩ | ⟨rfl, name, blank, rfl, hname, hpackage⟩
    · rw [List.append_nil] at hfront
      rcases hpre with rfl | hclause
      · obtain ⟨c, hc, hcblank⟩ := hends.exists_not_isBlank
        rw [← hfront, List.nil_append] at hc
        rw [List.all_eq_true.1 hhead c hc] at hcblank
        exact Bool.false_ne_true hcblank.symm
      · rw [List.append_assoc] at ht
        exact hends.not_clauseAt hsolid ht hfront hhead hclause
    · -- before the space stands the word, which ends in a comma
      obtain ⟨lead, first, hlead, -⟩ := hends.split
      rw [hlead, ← List.cons_append, ← List.append_assoc, ← List.append_assoc] at hfront
      have hword := congrArg List.getLast? (List.append_inj_left' hfront rfl)
      rw [List.getLast?_append_of_ne_nil _ hname, List.getLast?_append_of_ne_nil _
        (List.cons_ne_nil _ _), List.getLast?_cons_of_ne_nil hends.nonempty,
        hnamed.resolve_left fun hne => hne rfl] at hword
      obtain ⟨n, rfl⟩ := List.getLast?_eq_some_iff.1 hword
      obtain ⟨u, hu⟩ := Text.exists_trim_concat (c := ',') (by decide) n
      rw [hu] at hpackage
      exact Go.Import.packageOf_concat_comma u hpackage
  | comment hsolid hcomment =>
    by_cases hnil : pre = []
    · have hbegins : Text.isComment l = true := by
        have hlong : 2 ≤ l.length := by
          rw [hl, htrim]
          simp [quoted]
          omega
        rw [hline, hnil, List.nil_append] at hcomment
        exact Text.isComment_of_append hcomment hlong
      rw [Text.beforeComment_of_isComment hbegins] at htrim
      exact absurd htrim.symm (List.append_ne_nil_of_right_ne_nil _ (List.cons_ne_nil _ _))
    · exact not_clauseAt_comment hsolid (hidden_comment hcomment hnewline) ht hline hnil
        (hpre.resolve_left hnil)

theorem quote_not_mem_of_isBare {t : List Char} (h : isBare t = true) : '"' ∉ t := by
  induction t with
  | nil => exact List.not_mem_nil
  | cons c cs ih =>
    rw [isBare, Bool.and_eq_true] at h
    rw [List.mem_cons, not_or]
    refine ⟨?_, ih h.2⟩
    rintro rfl
    exact absurd h.1 (by simp [beginsNothing])

namespace NamedLines

variable {a b : List Char}

/-- Every import that is read from such lines is called something. -/
theorem name_ne_empty {is : List Go.Import} (h : NamedLines t)
    (his : (ofSource .go t).imports? = some is) (hi : i ∈ is) :
    (Go.Import.ofSpec i.spec).name ≠ "" := by
  obtain ⟨before, pre, l, post, ht, hbefore, hpre, hl, hread, hclause⟩ :=
    exists_line_of_mem_imports? his hi
  by_cases hmem : '\n' ∈ post
  · obtain ⟨u, rest, rfl, hu⟩ := List.eq_append_cons_of_mem hmem
    have hnewline : '\n' ∉ pre ++ (l ++ u) := by
      rw [List.mem_append, List.mem_append, not_or, not_or]
      exact ⟨hpre, hl, hu⟩
    have hshape : t = before ++ (pre ++ (l ++ u) ++ '\n' :: rest) := by
      rw [ht]
      simp
    exact (h.line _ _ _ hshape hbefore hnewline).name_ne_empty hshape hnewline rfl hread hclause
  · -- whole lines end in a line feed
    have hne : pre ++ (l ++ post) ≠ [] := by
      refine List.append_ne_nil_of_right_ne_nil _ (List.append_ne_nil_of_left_ne_nil ?_ _)
      rintro rfl
      cases hread
    have hlast := h.last _ (by
      rw [ht, List.getLast?_append_of_ne_nil _ hne, List.getLast?_eq_some_getLast hne]
      rfl)
    have hfeed := List.getLast_mem hne
    rw [hlast, List.mem_append, List.mem_append] at hfeed
    rcases hfeed with hfeed | hfeed | hfeed
    · exact absurd hfeed hpre
    · exact absurd hfeed hl
    · exact absurd hfeed hmem

/-! ## Texts of such lines -/

/-- Two such texts one after the other are one. -/
theorem append (ha : NamedLines a) (hb : NamedLines b) : NamedLines (a ++ b) := by
  refine ⟨ha.toSolidLines.append hb.toSolidLines, fun before line rest ht hbefore hnewline => ?_⟩
  have hlines : a ++ b = before ++ line ++ ['\n'] ++ rest := by
    rw [ht]
    simp
  obtain ⟨a', hfirst, hb'⟩ | ⟨c, ha', -⟩ := List.append_eq_append_iff.1 hlines
  · rcases List.eq_nil_or_concat a' with rfl | ⟨d, e, rfl⟩
    · rw [List.append_nil] at hfirst
      exact ha.line before line [] (by rw [← hfirst]; simp) hbefore hnewline
    · rw [List.concat_eq_append, ← List.append_assoc] at hfirst
      obtain ⟨hsame, hfeed⟩ := List.append_inj' hfirst rfl
      obtain rfl := (List.cons.inj hfeed).1
      -- the line does not begin before the second text, as the first one ends in a line feed
      obtain ⟨m, rfl, hd⟩ : ∃ m, before = a ++ m ∧ d = m ++ line := by
        obtain ⟨m, hm, hd⟩ | ⟨m, hm, hd⟩ := List.append_eq_append_iff.1 hsame
        · rcases List.eq_nil_or_concat m with rfl | ⟨u, f, rfl⟩
          · exact ⟨[], by simpa using hm.symm, by simpa using hd.symm⟩
          · rw [List.concat_eq_append] at hm hd
            have hf := ha.last f (by rw [hm, ← List.append_assoc, List.getLast?_concat]; rfl)
            rw [hd, hf] at hnewline
            exact absurd (List.mem_append_left _ (List.mem_append_right _ List.mem_cons_self))
              hnewline
        · exact ⟨m, hm, hd⟩
      have hquotes := hb.line m line rest (by rw [hb', hd]; simp) (fun f hf => hbefore f (by
        rw [List.getLast?_append_of_ne_nil _ (by rintro rfl; cases hf)]
        exact hf)) hnewline
      exact hquotes.prepend ha.toSolid
  · exact ha.line before line c (by rw [ha']; simp) hbefore hnewline

/-- No line of a text without quotes holds an import. -/
theorem of_not_mem (h : SolidLines t) (hquote : '"' ∉ t) : NamedLines t := by
  refine ⟨h, fun before line rest ht _ _ => .few ?_⟩
  have hline : '"' ∉ line := fun hmem => hquote (by rw [ht]; simp [hmem])
  rw [List.count_eq_zero.2 hline]
  exact Nat.zero_le 1

theorem nil : NamedLines [] :=
  of_not_mem ⟨hidden_nil.toSolid, nofun⟩ List.not_mem_nil

/-- A single line. -/
theorem of_line {line : List Char} (h : Solid (line ++ ['\n'])) (hnewline : '\n' ∉ line)
    (hquotes : NamedQuotes [] line) : NamedLines (line ++ ['\n']) := by
  refine ⟨.of_newline h, fun before l rest ht hbefore _ => ?_⟩
  have hcount := congrArg (List.count '\n') ht
  have hnone := List.count_eq_zero.2 hnewline
  simp only [List.count_append, List.count_cons_self, List.count_nil] at hcount
  have hempty : before = [] := by
    refine List.eq_nil_iff_forall_not_mem.2 fun c hc => ?_
    have hfeed := hbefore _ (List.getLast?_eq_some_getLast (List.ne_nil_of_mem hc))
    have hmem := List.getLast_mem (List.ne_nil_of_mem hc)
    rw [hfeed] at hmem
    have hbare : before.count '\n' = 0 := by omega
    exact List.count_eq_zero.1 hbare hmem
  subst hempty
  have hl : '\n' ∉ l := List.count_eq_zero.1 (by omega)
  obtain ⟨rfl, -⟩ := Text.append_cons_inj hnewline hl ht
  exact hquotes

/-- No line holds two quotes when a line feed stands between the only two. -/
theorem of_feed {front path rest : List Char}
    (h : SolidLines (front ++ '"' :: (path ++ '"' :: rest))) (hquotes : '"' ∉ front ++ path ++ rest)
    (hpath : '\n' ∈ path) : NamedLines (front ++ '"' :: (path ++ '"' :: rest)) := by
  refine ⟨h, fun before line behind ht _ hnewline => .few (Nat.le_of_not_lt fun hcount => ?_)⟩
  have hpos : 0 < line.count '"' := by omega
  obtain ⟨x, y, rfl, hx⟩ := List.eq_append_cons_of_mem (List.count_pos_iff.1 hpos)
  have hy : '"' ∈ y := by
    rw [List.count_append, List.count_cons_self, List.count_eq_zero.2 hx] at hcount
    exact List.count_pos_iff.1 (by omega)
  obtain ⟨y, z, rfl, -⟩ := List.eq_append_cons_of_mem hy
  have hsplit : before ++ x ++ '"' :: (y ++ '"' :: (z ++ '\n' :: behind)) =
      front ++ '"' :: (path ++ '"' :: rest) := by
    rw [ht]
    simp
  obtain ⟨-, rfl, -⟩ := Text.eq_of_two_quotes hquotes hsplit
  exact hnewline (by simp [hpath])

theorem flatMap {α : Type} {f : α → List Char} {as : List α}
    (h : ∀ a ∈ as, NamedLines (f a)) : NamedLines (as.flatMap f) := by
  induction as with
  | nil => exact .nil
  | cons a as ih =>
    rw [List.flatMap_cons]
    exact (h a List.mem_cons_self).append (ih fun b hb => h b (List.mem_cons_of_mem a hb))

theorem of_chars {t : List Char} (h : ∀ c ∈ t, isBareChar c = true) :
    NamedLines (t ++ ['\n']) := by
  have hchars : ∀ c ∈ t ++ ['\n'], isBareChar c = true := by
    intro c hc
    rcases List.mem_append.1 hc with hc | hc
    · exact h c hc
    · rw [List.mem_singleton.1 hc]
      decide
  exact .of_not_mem (.of_newline (solid_of_bare (List.all_eq_true.2 hchars))) fun hmem =>
    absurd (hchars _ hmem) (by decide)

theorem newline : NamedLines ['\n'] :=
  @of_chars [] fun _ hc => absurd hc List.not_mem_nil

theorem of_comment {t : List Char} (hcomment : Text.isComment t = true) (hline : '\n' ∉ t) :
    NamedLines (t ++ ['\n']) :=
  .of_line (hidden_comment hcomment hline).toSolid hline (.comment hidden_nil.toSolid hcomment)

end NamedLines

end Masked

end RpcBindings
