import RpcBindings.Proofs.Client.KeptFrom

/-!
Conditionals in a text whose parts are known.

A conditional is read part by part: its keyword, its condition, its block, and its `else` branches one
after the other (`TextFrom.chainStop_branches`). Main statements: lines without conditionals are kept
(`TextFrom.keptFrom_lines`), the head of a conditional that does not test for an error is kept
(`TextFrom.keptFrom_head`), and nothing is kept of an error block on lines of its own
(`TextFrom.keptFrom_errorBlock`).
-/

namespace RpcBindings

namespace Masked

variable {m : Masked} {source : List Char} {i o : Nat}

/-! ## Gaps, keywords and braces -/

/-- A text that shows nothing but blanks. -/
structure Gap (g : List Char) : Prop where
  closed : Closed g
  blank : Text.allBlank (mask .go g) = true

theorem solid_of_allBlank {g : List Char} (hg : Text.allBlank g = true) : Solid g :=
  solid_of_bare (List.all_eq_true.2 fun c hc => isBareChar_of_isBlank (List.all_eq_true.1 hg c hc))

theorem gap_of_allBlank {g : List Char} (hg : Text.allBlank g = true) : Gap g := by
  refine ⟨(solid_of_allBlank hg).closed, ?_⟩
  have := mask_blank_append hg []
  rw [List.append_nil] at this
  rwa [this, show mask .go [] = [] from rfl, List.append_nil]

/-- A closed text is masked on its own before a character that starts nothing and makes no comment. -/
theorem Closed.mask_append_char {a : List Char} (ha : Closed a) {c : Char}
    (hc : isBareChar c = true ∧ c ≠ '*') (rest : List Char) :
    mask .go (a ++ c :: rest) = mask .go a ++ c :: mask .go rest := by
  have hslash : c ≠ '/' := by
    rintro rfl
    exact absurd hc.1 (by decide)
  rw [mask_append ha fun _ => detached_cons hslash hc.2 rest, mask_cons hc.1]

theorem TextFrom.drop_to_brace {a rest : List Char} (ht : m.TextFrom i (a ++ '\x7b' :: rest))
    (ha : Closed a) : m.TextFrom (i + Text.byteLength a) ('\x7b' :: rest) :=
  ht.drop ha fun _ => detached_cons (by decide) (by decide) rest

theorem TextFrom.code_brace {a rest : List Char} (ht : m.TextFrom i (a ++ '\x7b' :: rest))
    (ha : Closed a) : m.CodeFrom i (mask .go a ++ '\x7b' :: mask .go rest) := by
  have hcode := ht.2
  rwa [ha.mask_append_char (by decide)] at hcode

/-- No word reaches the end of a line. -/
theorem endsNoWord_mask_of_newline {x : List Char} (hx : x.getLast? = some '\n') :
    endsNoWord (mask .go x) = true := by
  obtain ⟨a, rfl⟩ := List.getLast?_eq_some_iff.1 hx
  obtain ⟨y, hy⟩ := exists_mask_append_newline (.code .fresh) a
  have hy : mask .go (a ++ ['\n']) = y ++ ['\n'] := hy
  rw [hy]
  exact endsNoWord_append_newline y

/-- Behind a gap a keyword stands whole when it does not go on. -/
theorem TextFrom.wordAt_gap {gap word rest : List Char} (ht : m.TextFrom o (gap ++ (word ++ rest)))
    (hgap : Gap gap) (hdetached : Detached (word ++ rest)) (hword : Plain word)
    (hbefore : breaksWord (m.byteBefore o) = true) (hrest : beginsNoWord (mask .go rest) = true) :
    m.wordAt word (o + Text.byteLength gap) = true := by
  obtain ⟨u, hcode, rfl⟩ := ht.code_append hgap.closed fun _ => hdetached
  rw [hword.solid.mask_append, hword.mask_eq, ← List.append_assoc] at hcode
  rw [byteBefore_byteLength (by rw [hcode, List.append_assoc]), breaksWord_getLast?] at hbefore
  have hends : endsNoWord (u ++ mask .go gap) = true := by
    rw [endsNoWord_append hbefore]
    exact endsNoWord_of_allBlank hgap.blank
  rw [← byteLength_mask hgap.closed, ← Text.byteLength_append]
  exact (wordAt_iff hcode).2 ⟨hends, hrest⟩

/-- The first brace at top level behind a text without one. -/
theorem TextFrom.findTopLevel?_brace {a b : List Char} (ht : m.TextFrom i (a ++ '\x7b' :: b))
    (ha : Lacks '\x7b' a) : m.findTopLevel? i m.size '\x7b' = some (i + Text.byteLength a) := by
  rw [← byteLength_mask ha.closed]
  exact (ht.code_brace ha.closed).findTopLevel? (by decide) ha.absent ha.depthFrom_zero

/-- Behind a brace no word goes on. -/
theorem breaksWord_brace (h : m.hasChar i '\x7d' = true) : breaksWord (m.byteBefore (i + 1)) = true := by
  show breaksWord m.bytes[i]? = true
  rw [hasChar_iff.1 h]
  rfl

/-! ## Lines -/

/-- A line ends behind its line feed. -/
theorem CodeFrom.lineEnd {x rest : List Char} (h : m.CodeFrom i (x ++ '\n' :: rest))
    (hx : '\n' ∉ x) : m.lineEnd i = i + Text.byteLength x + 1 := by
  have hsize := h.size_eq
  rw [Text.byteLength_append, Text.byteLength_cons, show '\n'.utf8Size = 1 by decide] at hsize
  unfold Masked.lineEnd
  rw [h.lineStop hx]
  exact Nat.min_eq_left (by omega)

/-- The last line ends with the text. -/
theorem CodeFrom.lineEnd_last {x : List Char} (h : m.CodeFrom i x) (hx : '\n' ∉ x) :
    m.lineEnd i = i + Text.byteLength x := by
  have hline : ((m.bytes.drop i).takeWhile (· != '\n'.toUInt8)).length = Text.byteLength x := by
    rw [h.drop_bytes, ← List.append_nil (Text.bytes x),
      List.takeWhile_append_of_pos (bne_newline_of_mem_bytes hx), List.takeWhile_nil, List.append_nil,
      Text.length_bytes]
  have hsize := h.size_eq
  unfold Masked.lineEnd Masked.lineStop
  rw [hline]
  exact (Nat.min_eq_right (by omega)).trans hsize

/-! ## Branches -/

/-- An `else` branch: what stands before the keyword, between the keyword and the brace, and between the
braces. -/
structure ElseBranch where
  gap : List Char
  between : List Char
  body : List Char

namespace ElseBranch

def text (b : ElseBranch) : List Char :=
  b.gap ++ ("else".toList ++ (b.between ++ '\x7b' :: (b.body ++ ['\x7d'])))

/-- Only blanks stand before the keyword, and between it and the brace nothing or a conditional that
holds no brace at top level. -/
structure Wf (b : ElseBranch) : Prop where
  gap : Gap b.gap
  between : Lacks '\x7b' b.between
  whole : beginsNoWord (mask .go b.between) = true
  body : Regular b.body

variable {b : ElseBranch}

theorem text_append (b : ElseBranch) (rest : List Char) : b.text ++ rest =
    b.gap ++ ("else".toList ++ (b.between ++ '\x7b' :: (b.body ++ '\x7d' :: rest))) := by
  unfold text
  simp only [List.append_assoc, List.cons_append, List.nil_append]

theorem byteLength_text (b : ElseBranch) : Text.byteLength b.text =
    Text.byteLength b.gap + (4 + (Text.byteLength b.between + (1 + (Text.byteLength b.body + 1)))) := by
  unfold text
  simp only [Text.byteLength_append, Text.byteLength_cons, Text.byteLength_nil]
  rfl

end ElseBranch

theorem plain_else : Plain "else".toList := by
  unfold Plain
  decide

theorem detached_else (rest : List Char) : Detached ("else".toList ++ rest) :=
  detached_cons (by decide) (by decide) _

theorem plain_if : Plain "if".toList := by
  unfold Plain
  decide

theorem solid_append_brace {a : List Char} (ha : Closed a) (d : Char) (hd : d = '\x7b' ∨ d = '\x7d') :
    Solid (a ++ [d]) := by
  have hsolid : Solid [d] := by
    rcases hd with rfl | rfl
    · exact solid_opener .brace
    · exact solid_closer .brace
  refine ⟨ha.append hsolid.closed fun _ => ?_, ?_⟩
  · rcases hd with rfl | rfl <;> exact detached_cons (by decide) (by decide) []
  · rw [List.getLast?_append_of_ne_nil _ (List.cons_ne_nil _ _)]
    exact hsolid.no_slash

theorem ElseBranch.Wf.solid {b : ElseBranch} (hb : b.Wf) : Solid b.text := by
  have hbody := solid_append_brace hb.body.closed _ (.inr rfl)
  have hbetween : Solid (b.between ++ '\x7b' :: (b.body ++ ['\x7d'])) := by
    rw [List.append_cons]
    exact (solid_append_brace hb.between.closed _ (.inl rfl)).append hbody
  have helse := plain_else.solid.append hbetween
  refine ⟨hb.gap.closed.append helse.closed fun _ => detached_else _, ?_⟩
  unfold ElseBranch.text
  rw [List.getLast?_append_of_ne_nil _ (by simp)]
  exact helse.no_slash

/-- What follows a branch is read behind it, and no word goes on there. -/
theorem TextFrom.drop_branch {b : ElseBranch} {rest : List Char} (ht : m.TextFrom i (b.text ++ rest))
    (hb : b.Wf) : m.TextFrom (i + Text.byteLength b.text) rest ∧
      breaksWord (m.byteBefore (i + Text.byteLength b.text)) = true := by
  have ht' := ht
  rw [b.text_append] at ht
  have helse := ht.drop hb.gap.closed fun _ => detached_else _
  have hbetween := helse.drop_plain plain_else
  have hbrace := hbetween.drop_to_brace hb.between.closed
  have hclosed := hasChar_closer (d := .brace) (hbrace.hasChar (by decide) (by decide))
    (hbrace.closer? (d := .brace) hb.body)
  have hlen : i + Text.byteLength b.text = i + Text.byteLength b.gap +
      Text.byteLength "else".toList + Text.byteLength b.between + 1 + Text.byteLength b.body + 1 := by
    rw [b.byteLength_text, show Text.byteLength "else".toList = 4 from rfl]
    omega
  exact ⟨ht'.drop_solid hb.solid, hlen ▸ breaksWord_brace hclosed⟩

theorem solid_branches {branches : List ElseBranch} (hb : ∀ b ∈ branches, b.Wf) :
    Solid (branches.flatMap ElseBranch.text) := by
  induction branches with
  | nil => exact ⟨closed_nil, nofun⟩
  | cons b branches ih =>
    rw [List.flatMap_cons]
    exact (hb b List.mem_cons_self).solid.append (ih fun b' hb' => hb b' (List.mem_cons_of_mem b hb'))

theorem TextFrom.drop_branches {branches : List ElseBranch} {rest : List Char}
    (ht : m.TextFrom i (branches.flatMap ElseBranch.text ++ rest)) (hb : ∀ b ∈ branches, b.Wf) :
    m.TextFrom (i + Text.byteLength (branches.flatMap ElseBranch.text)) rest :=
  ht.drop_solid (solid_branches hb)

/-- A branch is found where its text stands. -/
theorem TextFrom.elseStop?_branch {b : ElseBranch} {rest : List Char}
    (ht : m.TextFrom i (b.text ++ rest)) (hb : b.Wf)
    (hbefore : breaksWord (m.byteBefore i) = true) :
    m.elseStop? i = some (i + Text.byteLength b.text) := by
  rw [b.text_append] at ht
  have hword := ht.wordAt_gap hb.gap (detached_else _) plain_else hbefore (by
    rw [hb.between.closed.mask_append_char (by decide)]
    exact beginsNoWord_append hb.whole rfl)
  have hskip : m.skipBlank? i = some (i + Text.byteLength b.gap) := by
    have hcode := ht.code_append hb.gap.closed fun _ => detached_else _
    rw [plain_else.solid.mask_append, plain_else.mask_eq] at hcode
    rw [← byteLength_mask hb.gap.closed]
    exact hcode.skipBlank? hb.gap.blank (by decide)
  have helse := ht.drop hb.gap.closed fun _ => detached_else _
  have hopened : m.findTopLevel? (i + Text.byteLength b.gap) m.size '\x7b' =
      some (i + Text.byteLength b.gap + Text.byteLength ("else".toList ++ b.between)) := by
    rw [← List.append_assoc] at helse
    exact helse.findTopLevel?_brace ((plain_else.lacks (by decide)).append hb.between fun hslash =>
      absurd hslash plain_else.solid.no_slash)
  have hclosed := ((helse.drop_plain plain_else).drop_to_brace hb.between.closed).closer? (d := .brace)
    hb.body
  rw [Text.byteLength_append, ← Nat.add_assoc] at hopened
  unfold elseStop?
  simp only [hskip, hword, hopened, hclosed, if_true, Option.map_some, b.byteLength_text]
  simp only [show Text.byteLength "else".toList = 4 from rfl]
  congr 1
  omega

/-- No branch is found where the next symbol is no `else`. -/
theorem TextFrom.elseStop?_none {rest : List Char} (ht : m.TextFrom i rest)
    (hrest : (symbols (mask .go rest)).head? ≠ some elseSymbol) : m.elseStop? i = none := by
  unfold elseStop?
  split
  · rfl
  · rename_i next hnext
    split
    · rename_i hword
      obtain ⟨a, gap, c, later, hcode, rfl, hgap, -, rfl⟩ := skipBlank?_eq_some hnext
      obtain ⟨u, hu, hlen⟩ := ht.2
      obtain ⟨mid, rfl, hmask, -⟩ := Text.exists_split_of_le hcode hu (Nat.le_of_eq hlen.symm)
      rw [Text.byteLength_append] at hlen
      obtain rfl : mid = [] := Text.byteLength_eq_zero (by omega)
      rw [← List.append_assoc] at hcode
      rw [← Text.byteLength_append] at hword
      obtain ⟨later', hlater, -, hbegins⟩ := exists_code_of_wordAt (by decide) hcode hword
      refine absurd ?_ hrest
      rw [← List.nil_append (mask .go rest), ← hmask, hlater, symbols_blank_append hgap,
        symbols_word_append (by decide) (by decide) hbegins]
      rfl
    · rfl

/-- The branches of a conditional end where their texts do. -/
theorem TextFrom.chainStop_branches {branches : List ElseBranch} {rest : List Char}
    (ht : m.TextFrom i (branches.flatMap ElseBranch.text ++ rest)) (hb : ∀ b ∈ branches, b.Wf)
    (hbefore : breaksWord (m.byteBefore i) = true)
    (hrest : (symbols (mask .go rest)).head? ≠ some elseSymbol) :
    m.chainStop i = i + Text.byteLength (branches.flatMap ElseBranch.text) := by
  induction branches generalizing i with
  | nil => exact chainStop_of_none (ht.elseStop?_none hrest)
  | cons b branches ih =>
    rw [List.flatMap_cons, List.append_assoc] at ht
    have hwf := hb b List.mem_cons_self
    obtain ⟨hlater, hends⟩ := ht.drop_branch hwf
    rw [chainStop_of_some (ht.elseStop?_branch hwf hbefore),
      ih hlater (fun b' hb' => hb b' (List.mem_cons_of_mem b hb')) hends, List.flatMap_cons,
      Text.byteLength_append, Nat.add_assoc]

/-! ## Heads -/

/-- What stands before the block of a conditional: the start of its line, the keyword, and what stands
between the keyword and the brace. -/
structure Head where
  indent : List Char
  condition : List Char

namespace Head

def text (h : Head) : List Char :=
  h.indent ++ ("if".toList ++ (h.condition ++ ['\x7b']))

/-- Only blanks stand before the keyword on its line, and no brace stands at top level between it and the
one that opens the block. -/
structure Wf (h : Head) : Prop where
  indent : Text.allBlank h.indent = true
  line : '\n' ∉ h.indent
  condition : Lacks '\x7b' h.condition
  whole : beginsNoWord (mask .go h.condition) = true

theorem text_append (h : Head) (rest : List Char) :
    h.text ++ rest = h.indent ++ ("if".toList ++ (h.condition ++ '\x7b' :: rest)) := by
  unfold text
  simp only [List.append_assoc, List.cons_append, List.nil_append]

theorem byteLength_text (h : Head) : Text.byteLength h.text =
    Text.byteLength h.indent + (2 + (Text.byteLength h.condition + 1)) := by
  unfold text
  simp only [Text.byteLength_append, Text.byteLength_cons, Text.byteLength_nil]
  rfl

theorem Wf.solid {h : Head} (hh : h.Wf) : Solid h.text :=
  (solid_of_allBlank hh.indent).append
    (plain_if.solid.append (solid_append_brace hh.condition.closed _ (.inl rfl)))

end Head

section Head

variable {h : Head} {rest : List Char}

/-- Where the keyword of a head stands, and where its brace does. -/
def Head.keyword (h : Head) (o : Nat) : Nat :=
  o + Text.byteLength h.indent

def Head.opened (h : Head) (o : Nat) : Nat :=
  h.keyword o + "if".length + Text.byteLength h.condition

theorem Head.opened_add_one (h : Head) (o : Nat) : h.opened o + 1 = o + Text.byteLength h.text := by
  rw [h.byteLength_text]
  unfold Head.opened Head.keyword
  rw [show "if".length = 2 from rfl]
  omega

theorem TextFrom.drop_keyword (ht : m.TextFrom o (h.text ++ rest)) (hh : h.Wf) :
    m.TextFrom (h.keyword o + "if".length) (h.condition ++ '\x7b' :: rest) := by
  rw [h.text_append] at ht
  exact (ht.drop_solid (solid_of_allBlank hh.indent)).drop_plain plain_if

theorem TextFrom.drop_condition (ht : m.TextFrom o (h.text ++ rest)) (hh : h.Wf) :
    m.TextFrom (h.opened o) ('\x7b' :: rest) :=
  (ht.drop_keyword hh).drop_to_brace hh.condition.closed

theorem TextFrom.wordAt_head (ht : m.TextFrom o (h.text ++ rest)) (hh : h.Wf)
    (hbefore : breaksWord (m.byteBefore o) = true) : m.wordAt "if".toList (h.keyword o) = true := by
  rw [h.text_append] at ht
  refine ht.wordAt_gap (gap_of_allBlank hh.indent) (detached_cons (by decide) (by decide) _) plain_if
    hbefore ?_
  rw [hh.condition.closed.mask_append_char (by decide)]
  exact beginsNoWord_append hh.whole rfl

theorem TextFrom.findTopLevel?_head (ht : m.TextFrom o (h.text ++ rest)) (hh : h.Wf) :
    m.findTopLevel? (h.keyword o + "if".length) m.size '\x7b' = some (h.opened o) :=
  (ht.drop_keyword hh).findTopLevel?_brace hh.condition

theorem TextFrom.slice_head (ht : m.TextFrom o (h.text ++ rest)) (hh : h.Wf) :
    m.slice (h.keyword o + "if".length) (h.opened o) = h.condition :=
  (ht.drop_keyword hh).slice

theorem not_mem_symbols_of_allBlank {w b : List Char} (hb : Text.allBlank b = true) :
    w ∉ symbols b := by
  rw [symbols_of_allBlank hb]
  exact List.not_mem_nil

/-- The start of its line shows before a head. -/
theorem TextFrom.code_head (ht : m.TextFrom o (h.text ++ rest)) (hh : h.Wf) :
    ∃ code, m.CodeFrom o (h.indent ++ code) := by
  have hcode := ht.2
  rw [h.text_append, mask_blank_append hh.indent] at hcode
  exact ⟨_, hcode⟩

theorem TextFrom.lineStart_head (ht : m.TextFrom o (h.text ++ rest)) (hh : h.Wf)
    (hstart : m.IsLineStart o) : m.lineStart (h.keyword o) = o := by
  obtain ⟨code, hcode⟩ := ht.code_head hh
  rw [Head.keyword, hcode.lineStart_add fun hmem =>
    absurd (bne_newline_of_mem_bytes hh.line _ hmem) (by simp), hstart.lineStart_eq]

theorem TextFrom.beginsLine_head (ht : m.TextFrom o (h.text ++ rest)) (hh : h.Wf)
    (hstart : m.IsLineStart o) : m.beginsLine (h.keyword o) = true := by
  obtain ⟨code, hcode⟩ := ht.code_head hh
  unfold beginsLine
  rw [ht.lineStart_head hh hstart]
  exact hcode.isBlank hh.indent

/-- No conditional stands before the keyword of a head. -/
theorem TextFrom.errorBlocksBehind_keyword
    (ht : (ofSource .go source).TextFrom o (h.text ++ rest)) (hh : h.Wf) :
    (ofSource .go source).errorBlocksBehind o =
      (ofSource .go source).errorBlocksBehind (h.keyword o) := by
  refine errorBlocksBehind_eq (Nat.le_add_right _ _) fun i hi hlt => ?_
  obtain ⟨code, hcode⟩ := ht.code_head hh
  exact hcode.wordAt_eq_false (by decide) (by decide) (.inl (endsNoWord_of_allBlank hh.indent))
    (not_mem_symbols_of_allBlank hh.indent) hi hlt

end Head

/-! ## What is kept -/

section Kept

variable {rest : List Char}

/-- No error block begins with the head of a conditional that does not test for an error. -/
theorem TextFrom.errorBlocksBehind_head {h : Head}
    (ht : (ofSource .go source).TextFrom o (h.text ++ rest)) (hh : h.Wf)
    (hbefore : breaksWord ((ofSource .go source).byteBefore o) = true)
    (hnone : "if".toList ∉ symbols (mask .go h.condition))
    (htests : ¬Client.TestsError (Text.trim h.condition)) :
    (ofSource .go source).errorBlocksBehind o =
      (ofSource .go source).errorBlocksBehind (o + Text.byteLength h.text) := by
  rw [ht.errorBlocksBehind_keyword hh, errorBlocksBehind_of_passed (ht.wordAt_head hh hbefore)
    (ht.findTopLevel?_head hh) (by
      rw [ht.slice_head hh]
      exact Bool.eq_false_iff.2 fun h => htests (Client.testsError_iff.1 h))]
  have hend : h.keyword o + "if".length + Text.byteLength (mask .go h.condition ++ ['\x7b']) =
      o + Text.byteLength h.text := by
    rw [← h.opened_add_one, Text.byteLength_append, byteLength_mask hh.condition.closed]
    rfl
  have hcode := (ht.drop_keyword hh).code_brace hh.condition.closed
  rw [List.append_cons] at hcode
  refine errorBlocksBehind_eq (by rw [← hend]; exact Nat.le_add_right _ _) fun i hi hlt => ?_
  rw [← hend] at hlt
  refine hcode.wordAt_eq_false (by decide) (by decide)
    (.inl (endsNoWord_append_of_ne_nil (List.cons_ne_nil _ _))) (fun hmem => ?_) hi hlt
  rw [symbols_append_char rfl (by decide)] at hmem
  rcases List.mem_append.1 hmem with hmem | hmem
  · exact hnone hmem
  · exact absurd (List.mem_singleton.1 hmem) (by decide)

/-- The head of a conditional that does not test for an error is kept. -/
theorem TextFrom.keptFrom_head (hunsplit : Unsplit (glyphs .go source)) {h : Head}
    (ht : (ofSource .go source).TextFrom o (h.text ++ rest)) (hh : h.Wf)
    (hbefore : breaksWord ((ofSource .go source).byteBefore o) = true)
    (hnone : "if".toList ∉ symbols (mask .go h.condition))
    (htests : ¬Client.TestsError (Text.trim h.condition)) :
    (ofSource .go source).keptFrom o =
      h.text ++ (ofSource .go source).keptFrom (o + Text.byteLength h.text) := by
  have hbrace := (ht.drop_condition hh).hasChar (by decide) (by decide)
  have hsep := separates_of_hasChar hbrace (by decide) (.inr (by decide))
  rw [h.opened_add_one] at hsep
  exact keptFrom_eq_append hunsplit ht.1 hsep (ht.errorBlocksBehind_head hh hbefore hnone htests)

/-- No error block begins in a part without conditionals that a word does not leave. -/
theorem TextFrom.errorBlocksBehind_part {x : List Char}
    (ht : (ofSource .go source).TextFrom o (x ++ rest)) (hx : Closed x)
    (hdetached : x.getLast? = some '/' → Detached rest)
    (hborder : endsNoWord (mask .go x) = true ∨ rest = [])
    (hnone : "if".toList ∉ symbols (mask .go x)) :
    (ofSource .go source).errorBlocksBehind o =
      (ofSource .go source).errorBlocksBehind (o + Text.byteLength x) := by
  refine errorBlocksBehind_eq (Nat.le_add_right _ _) fun i hi hlt => ?_
  rw [← byteLength_mask hx] at hlt
  exact (ht.code_append hx hdetached).wordAt_eq_false (by decide) (by decide)
    (hborder.imp_right fun h => by rw [h]; rfl) hnone hi hlt

/-- A part without conditionals that a word does not leave is kept. -/
theorem TextFrom.keptFrom_part (hunsplit : Unsplit (glyphs .go source)) {x : List Char}
    (ht : (ofSource .go source).TextFrom o (x ++ rest)) (hx : Closed x)
    (hdetached : x.getLast? = some '/' → Detached rest)
    (hborder : endsNoWord (mask .go x) = true ∨ rest = [])
    (hnone : "if".toList ∉ symbols (mask .go x))
    (hsep : (ofSource .go source).Separates (o + Text.byteLength x)) :
    (ofSource .go source).keptFrom o =
      x ++ (ofSource .go source).keptFrom (o + Text.byteLength x) := by
  exact keptFrom_eq_append hunsplit ht.1 hsep (ht.errorBlocksBehind_part hx hdetached hborder hnone)

theorem detached_of_endsLine {x : List Char} (h : x.getLast? = some '\n' ∨ rest = []) :
    x.getLast? = some '/' → Detached rest := by
  intro hslash
  rcases h with h | rfl
  · rw [h] at hslash
    exact absurd hslash (by decide)
  · exact ⟨nofun, nofun⟩

theorem TextFrom.isLineStart_behind {x : List Char} (ht : m.TextFrom o (x ++ rest)) (hx : Closed x)
    (hline : x.getLast? = some '\n') : m.IsLineStart (o + Text.byteLength x) := by
  obtain ⟨a, rfl⟩ := List.getLast?_eq_some_iff.1 hline
  exact ht.isLineStart_newline ⟨hx, by rw [hline]; decide⟩

theorem IsLineStart.separates (h : (ofSource .go source).IsLineStart i) :
    (ofSource .go source).Separates i := by
  rcases h with rfl | ⟨k, rfl, hk⟩
  · exact separates_zero _
  · exact separates_of_hasChar (hasChar_iff.2 hk) (by decide) (.inl rfl)

/-- Lines without conditionals are kept, also when the text ends with the last of them. -/
theorem TextFrom.keptFrom_lines (hunsplit : Unsplit (glyphs .go source)) {x : List Char}
    (ht : (ofSource .go source).TextFrom o (x ++ rest)) (hx : Closed x)
    (hend : x.getLast? = some '\n' ∨ rest = []) (hnone : "if".toList ∉ symbols (mask .go x)) :
    (ofSource .go source).keptFrom o =
      x ++ (ofSource .go source).keptFrom (o + Text.byteLength x) := by
  refine ht.keptFrom_part hunsplit hx (detached_of_endsLine hend)
    (hend.imp_left endsNoWord_mask_of_newline) hnone ?_
  rcases hend with hline | rfl
  · exact (ht.isLineStart_behind hx hline).separates
  · have hsize := ht.2.size_eq
    rw [List.append_nil, byteLength_mask hx] at hsize
    exact hsize ▸ separates_size hunsplit

end Kept

/-! ## Error blocks -/

/-- An error block: its head, what stands between its braces, its other branches, and the rest of the
line on which the last of them ends. -/
structure ErrorBlock where
  head : Head
  body : List Char
  branches : List ElseBranch
  trail : List Char

namespace ErrorBlock

def text (b : ErrorBlock) : List Char :=
  b.head.text ++ (b.body ++ '\x7d' :: (b.branches.flatMap ElseBranch.text ++ b.trail))

/-- The condition tests for an error, and only blanks stand behind the block on its last line. -/
structure Wf (b : ErrorBlock) : Prop where
  head : b.head.Wf
  tests : Client.TestsError (Text.trim b.head.condition)
  body : Regular b.body
  branches : ∀ e ∈ b.branches, e.Wf
  trail : Text.allBlank b.trail = true
  line : '\n' ∉ b.trail.dropLast

theorem text_append (b : ErrorBlock) (rest : List Char) : b.text ++ rest =
    b.head.text ++ (b.body ++ '\x7d' ::
      (b.branches.flatMap ElseBranch.text ++ (b.trail ++ rest))) := by
  unfold text
  simp only [List.append_assoc, List.cons_append]

theorem byteLength_text (b : ErrorBlock) : Text.byteLength b.text =
    Text.byteLength b.head.text + (Text.byteLength b.body + (1 +
      (Text.byteLength (b.branches.flatMap ElseBranch.text) + Text.byteLength b.trail))) := by
  unfold text
  simp only [Text.byteLength_append, Text.byteLength_cons]
  rfl

/-- An error block ends its line when what stands behind its branches does. -/
theorem getLast?_text (b : ErrorBlock) (h : b.trail.getLast? = some '\n') :
    b.text.getLast? = some '\n' := by
  unfold text
  rw [List.getLast?_append, List.append_cons, List.getLast?_append, List.getLast?_append, h]
  rfl

theorem Wf.solid {b : ErrorBlock} (hb : b.Wf) : Solid b.text := by
  have hbody := solid_append_brace hb.body.closed _ (.inr rfl)
  have hrest := (solid_branches hb.branches).append (solid_of_allBlank hb.trail)
  have := hb.head.solid.append (hbody.append hrest)
  unfold text
  rwa [← List.append_cons] at this

end ErrorBlock

section ErrorBlock

variable {b : ErrorBlock} {rest : List Char}

/-- What stands behind the branches of an error block goes with their last line. -/
theorem TextFrom.lineEnd_trail (ht : m.TextFrom i (b.trail ++ rest)) (hb : b.Wf)
    (hend : b.trail.getLast? = some '\n' ∨ rest = []) :
    m.lineEnd i = i + Text.byteLength b.trail ∧ m.isBlank i (m.lineEnd i) = true := by
  have hcode := ht.2
  rw [mask_blank_append hb.trail] at hcode
  have hline : m.lineEnd i = i + Text.byteLength b.trail := by
    by_cases hnewline : b.trail.getLast? = some '\n'
    · obtain ⟨x, hx⟩ := List.getLast?_eq_some_iff.1 hnewline
      have hnone := hb.line
      rw [hx, List.dropLast_concat] at hnone
      rw [hx, List.append_assoc] at hcode
      rw [hcode.lineEnd hnone, hx, Text.byteLength_append]
      rfl
    · obtain rfl := hend.resolve_left hnewline
      have hnone : '\n' ∉ b.trail := fun hmem => by
        rw [← List.dropLast_append_getLast (List.ne_nil_of_mem hmem)] at hmem
        rcases List.mem_append.1 hmem with hmem | hmem
        · exact hb.line hmem
        · refine hnewline ?_
          rw [List.getLast?_eq_some_getLast, List.mem_singleton.1 hmem]
      rw [show mask .go [] = [] from rfl, List.append_nil] at hcode
      exact hcode.lineEnd_last hnone
  exact ⟨hline, hline ▸ hcode.isBlank hb.trail⟩

/-- An error block on lines of its own is found with these lines, when no other branch follows it. -/
theorem TextFrom.errorBlocksBehind_errorBlock (ht : (ofSource .go source).TextFrom o (b.text ++ rest))
    (hb : b.Wf) (hstart : (ofSource .go source).IsLineStart o)
    (hend : b.trail.getLast? = some '\n' ∨ rest = [])
    (hrest : (symbols (mask .go rest)).head? ≠ some elseSymbol) :
    (ofSource .go source).errorBlocksBehind o = ⟨o, o + Text.byteLength b.text⟩ ::
      (ofSource .go source).errorBlocksBehind (o + Text.byteLength b.text) := by
  have hlen := b.byteLength_text
  have hopened := b.head.opened_add_one o
  rw [b.text_append] at ht
  have hbefore := ht.drop_condition hb.head
  have hclosed := hbefore.closer? (d := .brace) hb.body
  have hbrace := hasChar_closer (d := .brace) (hbefore.hasChar (by decide) (by decide)) hclosed
  have hbranches := hbefore.drop_enclosed (d := .brace) hb.body
  -- no branch follows the last one, since only blanks stand before the rest
  have hchain := hbranches.chainStop_branches hb.branches (breaksWord_brace hbrace) (by
    rw [mask_blank_append hb.trail, symbols_blank_append hb.trail]
    exact hrest)
  obtain ⟨hline, hblank⟩ := (hbranches.drop_branches hb.branches).lineEnd_trail hb hend
  have hwiden : (ofSource .go source).widen (b.head.keyword o)
      ((ofSource .go source).chainStop (b.head.opened o + 1 + Text.byteLength b.body + 1)) =
        ⟨o, o + Text.byteLength b.text⟩ := by
    unfold widen
    rw [hchain, if_pos hblank, if_pos (ht.beginsLine_head hb.head hstart), hline,
      ht.lineStart_head hb.head hstart]
    congr 1
    omega
  have hblocks := errorBlocksBehind_of_tests (ht.wordAt_head hb.head hstart.breaksWord)
    (ht.findTopLevel?_head hb.head)
    (by rw [ht.slice_head hb.head]; exact Client.testsError_iff.2 hb.tests) hclosed (by
      rw [hwiden]
      show o + Text.byteLength b.head.indent + 1 ≤ o + Text.byteLength b.text
      rw [hlen, b.head.byteLength_text]
      omega)
  rw [hwiden] at hblocks
  rw [ht.errorBlocksBehind_keyword hb.head, hblocks]

/-- Nothing is kept of an error block on lines of its own, when no other branch follows it. -/
theorem TextFrom.keptFrom_errorBlock (ht : (ofSource .go source).TextFrom o (b.text ++ rest))
    (hb : b.Wf) (hstart : (ofSource .go source).IsLineStart o)
    (hend : b.trail.getLast? = some '\n' ∨ rest = [])
    (hrest : (symbols (mask .go rest)).head? ≠ some elseSymbol) :
    (ofSource .go source).keptFrom o =
      (ofSource .go source).keptFrom (o + Text.byteLength b.text) := by
  unfold keptFrom
  rw [ht.errorBlocksBehind_errorBlock hb hstart hend hrest, Client.without]
  unfold Text.cut
  rw [Nat.sub_self, Text.takeBytes]
  rfl

end ErrorBlock

end Masked

end RpcBindings
