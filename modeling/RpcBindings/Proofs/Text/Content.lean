import RpcBindings.Proofs.Text.Layout

/-!
What the lines of a text hold.

Laying a text out anew moves its lines and leaves them as they are. Main statements: `content_tidy?`,
and that a text has a property of single lines when something among its content has it
(`OnLines.iff_content`).
-/

namespace RpcBindings.Text

/-! ## Blanks around a text -/

theorem trimEnd_append_blank {b : List Char} (hb : allBlank b = true) (a : List Char) :
    trimEnd (a ++ b) = trimEnd a := by
  unfold trimEnd
  rw [List.reverse_append,
    List.dropWhile_append_of_pos fun c hc => List.all_eq_true.1 hb c (List.mem_reverse.1 hc)]

theorem trim_of_allBlank {b : List Char} (hb : allBlank b = true) : trim b = [] := by
  have hstart : trimStart (b ++ []) = [] :=
    List.dropWhile_append_of_pos fun c hc => List.all_eq_true.1 hb c hc
  rw [List.append_nil] at hstart
  unfold trim
  rw [hstart]
  rfl

theorem trim_blank_append {b : List Char} (hb : allBlank b = true) (a : List Char) :
    trim (b ++ a) = trim a := by
  unfold trim trimStart
  rw [List.dropWhile_append_of_pos fun c hc => List.all_eq_true.1 hb c hc]

theorem trim_append_blank {b : List Char} (hb : allBlank b = true) (a : List Char) :
    trim (a ++ b) = trim a := by
  cases ha : allBlank a with
  | true => rw [trim_of_allBlank (allBlank_append.2 ⟨ha, hb⟩), trim_of_allBlank ha]
  | false =>
    have hne : (a.dropWhile isBlank).isEmpty = false := by
      refine Bool.eq_false_iff.2 fun hempty => ?_
      obtain ⟨head, heq, hhead⟩ := exists_trimStart a
      rw [show trimStart a = [] from List.isEmpty_iff.1 hempty, List.append_nil] at heq
      rw [heq, hhead] at ha
      exact Bool.false_ne_true ha.symm
    unfold trim trimStart
    rw [List.dropWhile_append, hne]
    exact trimEnd_append_blank hb _

theorem trim_trimEnd (a : List Char) : trim (trimEnd a) = trim a := by
  obtain ⟨tail, ha, htail⟩ := exists_trimEnd a
  calc trim (trimEnd a) = trim (trimEnd a ++ tail) := (trim_append_blank htail _).symm
    _ = trim a := by rw [← ha]

/-- A text is what is left of it without the blanks around it, and these blanks. -/
theorem exists_trim (a : List Char) :
    ∃ head tail, a = head ++ (trim a ++ tail) ∧ allBlank head = true ∧ allBlank tail = true := by
  obtain ⟨head, ha, hhead⟩ := exists_trimStart a
  obtain ⟨tail, hstart, htail⟩ := exists_trimEnd (trimStart a)
  exact ⟨head, tail, ha.trans (congrArg (head ++ ·) hstart), hhead, htail⟩

theorem trim_trim (t : List Char) : trim (trim t) = trim t := by
  obtain ⟨head, tail, ht, hhead, htail⟩ := exists_trim t
  conv => rhs; rw [ht, trim_blank_append hhead, trim_append_blank htail]

/-- What is trimmed begins with no blank. -/
theorem not_isBlank_of_trim {a rest : List Char} {c : Char} (h : trim a = c :: rest) :
    isBlank c = false := by
  have hstart := trimStart_trim a
  have hc := List.head?_dropWhile_not isBlank (trim a)
  rw [show (trim a).dropWhile isBlank = trim a from hstart, h] at hc
  simpa using hc

/-! ## Content -/

/-- Lines without the blanks around them, empty ones left out. -/
def held (ls : List (List Char)) : List (List Char) :=
  (ls.map trim).filter (!·.isEmpty)

/-- What the lines of a text hold. -/
def content (cs : List Char) : List (List Char) :=
  held (lines cs)

theorem held_cons (l : List Char) (ls : List (List Char)) : held (l :: ls) = held [l] ++ held ls := by
  unfold held
  rw [List.map_cons, List.filter_cons, List.map_singleton, List.filter_cons]
  split <;> rfl

theorem held_append (ls ls' : List (List Char)) : held (ls ++ ls') = held ls ++ held ls' := by
  unfold held
  rw [List.map_append, List.filter_append]

theorem held_congr {ls ls' : List (List Char)} (h : ls.map trim = ls'.map trim) :
    held ls = held ls' := by
  unfold held
  rw [h]

theorem held_map_trimEnd (ls : List (List Char)) : held (ls.map trimEnd) = held ls :=
  held_congr (by rw [List.map_map]; exact List.map_congr_left fun l _ => trim_trimEnd l)

theorem linesAux_append_newline_cons (run a b : List Char) :
    linesAux run (a ++ '\n' :: b) = linesAux run (a ++ ['\n']) ++ lines b := by
  induction a generalizing run with
  | nil => rfl
  | cons c a ih =>
    rw [List.cons_append, List.cons_append, linesAux, linesAux]
    split
    · rw [ih, List.cons_append]
    · exact ih (c :: run)

/-- A text holds what the texts hold that a line feed parts it into. -/
theorem content_newline (a b : List Char) :
    content (a ++ '\n' :: b) = content a ++ content b := by
  have hfirst : held (lines (a ++ ['\n'])) = held (lines a) := by
    rw [← held_map_trimEnd (lines (a ++ ['\n'])), ← held_map_trimEnd (lines a)]
    rcases linesAux_append_newline [] a with h | h
    · exact congrArg held h
    · refine (congrArg held h).trans ?_
      rw [held_append]
      exact List.append_nil _
  unfold content
  rw [lines, linesAux_append_newline_cons, held_append]
  exact congrArg (· ++ held (lines b)) hfirst

theorem linesAux_of_not_mem {a : List Char} (h : '\n' ∉ a) (run : List Char) :
    linesAux run a = if (run.reverse ++ a).isEmpty then [] else [run.reverse ++ a] := by
  induction a generalizing run with
  | nil =>
    rw [linesAux, List.append_nil, List.isEmpty_reverse]
  | cons c a ih =>
    rw [List.mem_cons, not_or] at h
    rw [linesAux, if_neg (Ne.symm h.1), ih h.2, List.reverse_cons, List.append_assoc]
    rfl

/-- A line holds itself. -/
theorem content_line {a : List Char} (h : '\n' ∉ a) : content a = held [a] := by
  unfold content lines
  rw [linesAux_of_not_mem h]
  cases a <;> rfl

/-- A line that is not blank holds what is left of it without the blanks around it. -/
theorem content_line_cases {a : List Char} (h : '\n' ∉ a) :
    trim a = [] ∧ content a = [] ∨ content a = [trim a] := by
  rw [content_line h]
  show trim a = [] ∧ [trim a].filter (!·.isEmpty) = [] ∨ [trim a].filter (!·.isEmpty) = [trim a]
  cases htrim : trim a with
  | nil => exact .inl ⟨rfl, rfl⟩
  | cons c r => exact .inr rfl

/-- Texts are made of lines: what a line has, and a text with one more line before it, all texts
have. -/
@[elab_as_elim]
theorem lines_induction {motive : List Char → Prop} (line : ∀ a, '\n' ∉ a → motive a)
    (more : ∀ a b, '\n' ∉ a → motive b → motive (a ++ '\n' :: b)) (cs : List Char) : motive cs := by
  induction hlen : cs.length using Nat.strongRecOn generalizing cs with
  | ind n ih =>
    by_cases hmem : '\n' ∈ cs
    · obtain ⟨a, b, rfl, ha⟩ := List.eq_append_cons_of_mem hmem
      refine more a b ha (ih b.length ?_ b rfl)
      rw [← hlen, List.length_append, List.length_cons]
      omega
    · exact line cs hmem

theorem linesAux_newline {a : List Char} (h : '\n' ∉ a) (run b : List Char) :
    linesAux run (a ++ '\n' :: b) = endLine (a.reverse ++ run) :: lines b := by
  induction a generalizing run with
  | nil => rfl
  | cons c a ih =>
    rw [List.mem_cons, not_or] at h
    rw [List.cons_append, linesAux, if_neg (Ne.symm h.1), ih h.2, List.reverse_cons,
      List.append_assoc]
    rfl

theorem trim_endLine (run : List Char) : trim (endLine run) = trim run.reverse := by
  rw [← trim_trimEnd, trimEnd_endLine, trim_trimEnd]

theorem allBlank_of_endLine_eq_nil {run : List Char} (h : endLine run = []) :
    allBlank run.reverse = true := by
  unfold endLine at h
  split at h
  · rw [List.reverse_cons, h]
    rfl
  · rw [h]
    rfl

/-- A text with an empty last line ends in a blank one behind a text of whole lines. -/
theorem exists_blank_line {cs : List Char} (h : ∀ line ∈ (lines cs).getLast?, line = []) :
    cs = [] ∨ ∃ before blank, cs = before ++ (blank ++ ['\n']) ∧
      (∀ c ∈ before.getLast?, c = '\n') ∧ allBlank blank = true := by
  induction cs using lines_induction with
  | line a ha =>
    refine .inl (Decidable.byContradiction fun hne => hne (h a ?_))
    have hempty : a.isEmpty = false := by simpa using hne
    rw [lines, linesAux_of_not_mem ha, List.reverse_nil, List.nil_append, hempty]
    rfl
  | more a b ha ih =>
    right
    rw [lines, linesAux_newline ha, List.append_nil] at h
    have hb : ∀ line ∈ (lines b).getLast?, line = [] := fun line hline => h line (by
      rw [List.getLast?_cons, Option.mem_def.1 hline]
      rfl)
    rcases ih hb with rfl | ⟨before, blank, rfl, hbefore, hblank⟩
    · refine ⟨[], a, rfl, nofun, ?_⟩
      rw [← List.reverse_reverse a]
      exact allBlank_of_endLine_eq_nil (h _ rfl)
    · refine ⟨a ++ '\n' :: before, blank, by rw [List.append_assoc]; rfl, fun c hc => ?_, hblank⟩
      rw [List.getLast?_append, List.getLast?_cons] at hc
      cases hlast : before.getLast? with
      | none =>
        rw [hlast] at hc
        exact (Option.some.inj hc).symm
      | some d =>
        rw [hlast] at hc
        obtain rfl := Option.some.inj hc
        exact hbefore d hlast

/-- A line holds the same whatever blanks stand around it. -/
theorem content_line_of_trim_eq {a b : List Char} (ha : '\n' ∉ a) (hb : '\n' ∉ b)
    (h : trim a = trim b) : content a = content b := by
  rw [content_line ha, content_line hb]
  exact held_congr (congrArg ([·]) h)

/-- Blanks hold nothing. -/
theorem content_of_allBlank {b : List Char} (hb : allBlank b = true) : content b = [] := by
  induction b using lines_induction with
  | line b hline => exact content_line_of_trim_eq hline List.not_mem_nil (trim_of_allBlank hb)
  | more b b' hline ih =>
    obtain ⟨hfirst, hlater⟩ := allBlank_append.1 hb
    rw [allBlank, List.all_cons, Bool.and_eq_true] at hlater
    rw [content_newline, ih hlater.2,
      content_line_of_trim_eq hline List.not_mem_nil (trim_of_allBlank hfirst)]
    rfl

theorem content_append_blank {b : List Char} (hb : allBlank b = true) (a : List Char) :
    content (a ++ b) = content a := by
  induction a using lines_induction with
  | line a ha =>
    by_cases hline : '\n' ∈ b
    · obtain ⟨b, b', rfl, hbefore⟩ := List.eq_append_cons_of_mem hline
      obtain ⟨hfirst, hlater⟩ := allBlank_append.1 hb
      rw [allBlank, List.all_cons, Bool.and_eq_true] at hlater
      have hab : '\n' ∉ a ++ b := fun h => (List.mem_append.1 h).elim ha hbefore
      rw [← List.append_assoc, content_newline, content_of_allBlank hlater.2, List.append_nil]
      exact content_line_of_trim_eq hab ha (trim_append_blank hfirst a)
    · have hab : '\n' ∉ a ++ b := fun h => (List.mem_append.1 h).elim ha hline
      exact content_line_of_trim_eq hab ha (trim_append_blank hb a)
  | more a a' ha ih => rw [List.append_assoc, List.cons_append, content_newline, content_newline, ih]

theorem content_blank_append {b : List Char} (hb : allBlank b = true) (a : List Char) :
    content (b ++ a) = content a := by
  induction b using lines_induction with
  | line b hline =>
    have hone {a : List Char} (ha : '\n' ∉ a) : content (b ++ a) = content a :=
      content_line_of_trim_eq (fun h => (List.mem_append.1 h).elim hline ha) ha
        (trim_blank_append hb a)
    by_cases ha : '\n' ∈ a
    · obtain ⟨a, a', rfl, hbefore⟩ := List.eq_append_cons_of_mem ha
      rw [← List.append_assoc, content_newline, content_newline, hone hbefore]
    · exact hone ha
  | more b b' hline ih =>
    obtain ⟨hfirst, hlater⟩ := allBlank_append.1 hb
    rw [allBlank, List.all_cons, Bool.and_eq_true] at hlater
    rw [List.append_assoc, List.cons_append, content_newline, content_of_allBlank hfirst,
      ih hlater.2, List.nil_append]

/-- A text that ends with a line, or with nothing at all, holds its lines whatever follows it. -/
theorem content_append {a : List Char} (ha : a.getLast?.all (· == '\n') = true) (b : List Char) :
    content (a ++ b) = content a ++ content b := by
  cases hlast : a.getLast? with
  | none =>
    rw [List.getLast?_eq_none_iff.1 hlast]
    rfl
  | some c =>
    rw [hlast] at ha
    obtain rfl : c = '\n' := eq_of_beq ha
    obtain ⟨init, rfl⟩ := List.getLast?_eq_some_iff.1 hlast
    rw [content_append_blank (b := ['\n']) (by decide), List.append_assoc]
    exact content_newline init b

/-! ## Laying out anew -/

theorem content_joinLines {ls : List (List Char)} (h : ∀ l ∈ ls, '\n' ∉ l) :
    content (joinLines ls) = held ls := by
  induction ls with
  | nil => rfl
  | cons l ls ih =>
    have hl := content_line (h l List.mem_cons_self)
    have hlater := ih fun x hx => h x (List.mem_cons_of_mem l hx)
    cases ls with
    | nil => exact hl
    | cons l' ls =>
      rw [joinLines, content_newline, hl, hlater, ← held_cons]
      exact List.cons_ne_nil l' ls

theorem held_filter (ls : List (List Char)) : held (ls.filter (!·.isEmpty)) = held ls := by
  induction ls with
  | nil => rfl
  | cons l ls ih =>
    rw [List.filter_cons]
    split
    · rw [held_cons, ih, held_cons l ls]
    · rename_i hempty
      have hnil : l = [] := by simpa using hempty
      rw [hnil, ih]
      rfl

theorem held_paragraphs (ls : List (List Char)) : held (paragraphs ls) = held ls := by
  rw [← held_filter, filter_paragraphs, held_filter]

/-- A line loses only blanks with its indentation. -/
theorem exists_of_dedentLine? {n : Nat} {l l' : List Char} (h : dedentLine? n l = some l')
    (hn : l.isEmpty = false → n ≤ indentation l) :
    ∃ blank, l = blank ++ l' ∧ allBlank blank = true := by
  unfold dedentLine? at h
  split at h
  · rename_i hempty
    rw [List.isEmpty_iff.1 hempty, Option.some.inj h.symm]
    exact ⟨[], rfl, rfl⟩
  · rename_i hempty
    obtain ⟨blank, hl, hlen⟩ := dropBytes?_eq_some_iff.1 h
    have hsplit := (List.takeWhile_append_dropWhile (p := isBlank) (l := l)).symm
    have hle : byteLength blank ≤ byteLength (l.takeWhile isBlank) := by
      rw [hlen]
      exact hn (Bool.eq_false_iff.2 hempty)
    obtain ⟨mid, htake, -, -⟩ := exists_split_of_le hl hsplit hle
    refine ⟨blank, hl, ?_⟩
    have hall : allBlank (l.takeWhile isBlank) = true := List.all_takeWhile
    rw [htake] at hall
    exact (allBlank_append.1 hall).1

theorem map_of_mapM {α β γ : Type} {f : α → Option β} {g : β → γ} {g' : α → γ} {as : List α}
    {bs : List β} (h : as.mapM f = some bs) (hf : ∀ a ∈ as, ∀ b, f a = some b → g b = g' a) :
    bs.map g = as.map g' ∧ ∀ b ∈ bs, ∃ a ∈ as, f a = some b := by
  induction as generalizing bs with
  | nil =>
    rw [Option.some.inj h.symm]
    exact ⟨rfl, fun b hb => absurd hb List.not_mem_nil⟩
  | cons a as ih =>
    rw [List.mapM_cons] at h
    obtain ⟨b, hb, h⟩ := Option.bind_eq_some_iff.1 h
    obtain ⟨bs', hbs, h⟩ := Option.bind_eq_some_iff.1 h
    obtain ⟨hmap, hmem⟩ := ih hbs fun x hx => hf x (List.mem_cons_of_mem a hx)
    obtain rfl := Option.some.inj h
    refine ⟨by rw [List.map_cons, List.map_cons, hf a List.mem_cons_self b hb, hmap], ?_⟩
    intro b' hb'
    rcases List.mem_cons.1 hb' with rfl | hb'
    · exact ⟨a, List.mem_cons_self, hb⟩
    · obtain ⟨a', ha', hb'⟩ := hmem b' hb'
      exact ⟨a', List.mem_cons_of_mem a ha', hb'⟩

/-- What its lines hold stays when a text is laid out anew. -/
theorem content_tidy? {cs tidied : List Char} (h : tidy? cs = some tidied) :
    content tidied = content cs := by
  unfold tidy? at h
  obtain ⟨ls, hls, rfl⟩ := Option.map_eq_some_iff.1 h
  have hdedent : ∀ l ∈ paragraphs ((lines cs).map trimEnd), ∀ l',
      dedentLine? (commonIndentation (paragraphs ((lines cs).map trimEnd))) l = some l' →
      ∃ blank, l = blank ++ l' ∧ allBlank blank = true :=
    fun l hl l' hl' => exists_of_dedentLine? hl' (commonIndentation_le hl)
  obtain ⟨htrim, hmem⟩ := @map_of_mapM _ _ _ _ trim trim _ _ hls fun l hl l' hl' => by
    obtain ⟨blank, rfl, hblank⟩ := hdedent l hl l' hl'
    exact (trim_blank_append hblank l').symm
  have hline : ∀ l' ∈ ls, '\n' ∉ l' := by
    intro l' hl' hnewline
    obtain ⟨l, hl, hdrop⟩ := hmem l' hl'
    obtain ⟨blank, heq, -⟩ := hdedent l hl l' hdrop
    rw [heq] at hl
    rcases mem_paragraphs hl with hnil | hl
    · rw [(List.append_eq_nil_iff.1 hnil).2] at hnewline
      exact absurd hnewline List.not_mem_nil
    · obtain ⟨l₀, hl₀, htrim₀⟩ := List.mem_map.1 hl
      obtain ⟨tail, htail, -⟩ := exists_trimEnd l₀
      refine not_mem_lines hl₀ ?_
      rw [htail, htrim₀]
      exact List.mem_append_left _ (List.mem_append_right _ hnewline)
  rw [content_joinLines hline, held_congr htrim, held_paragraphs, held_map_trimEnd]
  rfl

/-! ## Properties of lines -/

/-- A property that a text has when one of its lines has it, whatever blanks stand around the
line. -/
structure OnLines (P : List Char → Prop) : Prop where
  nil : ¬P []
  newline : ∀ a b, P (a ++ '\n' :: b) ↔ P a ∨ P b
  blank : ∀ {head tail : List Char} (a : List Char), allBlank head = true → allBlank tail = true →
    (P (head ++ (a ++ tail)) ↔ P a)

theorem OnLines.iff_content_line {P : List Char → Prop} (h : OnLines P) {a : List Char}
    (ha : '\n' ∉ a) : P a ↔ ∃ r ∈ content a, P r := by
  obtain ⟨head, tail, heq, hhead, htail⟩ := exists_trim a
  have htrim : P a ↔ P (trim a) := by
    have := h.blank (trim a) hhead htail
    rwa [← heq] at this
  rw [htrim]
  rcases content_line_cases ha with ⟨hnil, hcontent⟩ | hcontent
  · rw [hnil, hcontent]
    exact ⟨fun hP => absurd hP h.nil, fun ⟨r, hr, _⟩ => absurd hr List.not_mem_nil⟩
  · rw [hcontent]
    exact ⟨fun hP => ⟨_, List.mem_singleton.2 rfl, hP⟩,
      fun ⟨r, hr, hP⟩ => List.mem_singleton.1 hr ▸ hP⟩

/-- Whether a text has a property of lines is a question of what its lines hold. -/
theorem OnLines.iff_content {P : List Char → Prop} (h : OnLines P) (cs : List Char) :
    P cs ↔ ∃ r ∈ content cs, P r := by
  induction cs using lines_induction with
  | line a ha => exact h.iff_content_line ha
  | more a b ha ih =>
    rw [h.newline, content_newline, h.iff_content_line ha, ih]
    constructor
    · rintro (⟨r, hr, hP⟩ | ⟨r, hr, hP⟩)
      · exact ⟨r, List.mem_append_left _ hr, hP⟩
      · exact ⟨r, List.mem_append_right _ hr, hP⟩
    · rintro ⟨r, hr, hP⟩
      exact (List.mem_append.1 hr).imp (fun hr => ⟨r, hr, hP⟩) fun hr => ⟨r, hr, hP⟩

end RpcBindings.Text
