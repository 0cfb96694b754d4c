import RpcBindings.Proofs.Text.Cut
import RpcBindings.Proofs.Text.Relaid

/-!
What laying a text out anew does to the characters in it.

The blanks between two characters stay when they hold no line feed. Others become one line feed or two,
a tab, and the indentation behind the last of them without what all lines share. Main statement: the
lines of a text that is laid out anew, with one more tab before each, are the text with its blanks
changed so (`exists_indented_tidy?`).
-/

namespace RpcBindings.Text

/-! ## Blanks between characters -/

/-- The characters behind the last line feed. -/
def lastLine (g : List Char) : List Char :=
  (g.reverse.takeWhile (· != '\n')).reverse

/-- Blanks between two characters, laid out anew when lines lose a number of bytes of indentation. -/
def reindentGap (n : Nat) (g : List Char) : List Char :=
  if '\n' ∈ g then
    (if 2 ≤ g.count '\n' then ['\n', '\n'] else ['\n']) ++ '\t' :: dropBytes n (lastLine g)
  else g

/-- A text behind blanks, with all blanks laid out anew and none at its end. -/
def reindentFrom (n : Nat) (g : List Char) : List Char → List Char
  | [] => []
  | c :: cs =>
    if isBlank c then reindentFrom n (g ++ [c]) cs
    else reindentGap n g ++ c :: reindentFrom n [] cs

/-- A text with its blanks laid out anew. -/
def reindent (n : Nat) (cs : List Char) : List Char :=
  reindentFrom n [] cs

/-- The text ends in no blank. -/
def EndsInInk (a : List Char) : Prop :=
  ∀ c ∈ a.getLast?, isBlank c = false

/-- The first character of a text that is not blank, and the blanks before it. -/
theorem exists_run {cs : List Char} (h : allBlank cs = false) :
    ∃ g c rest, cs = g ++ c :: rest ∧ allBlank g = true ∧ isBlank c = false := by
  obtain ⟨g, hcs, hg⟩ := exists_trimStart cs
  have hc := List.head?_dropWhile_not isBlank cs
  cases hrest : trimStart cs with
  | nil =>
    rw [hrest, List.append_nil] at hcs
    rw [hcs, hg] at h
    exact absurd h.symm Bool.false_ne_true
  | cons c rest =>
    rw [hrest] at hcs
    rw [show cs.dropWhile isBlank = c :: rest from hrest] at hc
    exact ⟨g, c, rest, hcs, hg, hc⟩

/-- Texts are made of runs of blanks with a character behind each, and of blanks at the end. -/
@[elab_as_elim]
theorem runs_induction {motive : List Char → Prop} (blank : ∀ g, allBlank g = true → motive g)
    (run : ∀ g c cs, allBlank g = true → isBlank c = false → motive cs → motive (g ++ c :: cs))
    (cs : List Char) : motive cs := by
  induction hlen : cs.length using Nat.strongRecOn generalizing cs with
  | ind n ih =>
    cases hblank : allBlank cs with
    | true => exact blank cs hblank
    | false =>
      obtain ⟨g, c, rest, rfl, hg, hc⟩ := exists_run hblank
      refine run g c rest hg hc (ih rest.length ?_ rest rfl)
      rw [← hlen, List.length_append, List.length_cons]
      omega

theorem endsInInk_trimEnd (a : List Char) : EndsInInk (trimEnd a) := by
  intro c hc
  cases hblank : allBlank a with
  | true =>
    rw [trimEnd_of_allBlank hblank] at hc
    exact absurd hc (by simp)
  | false =>
    obtain ⟨init, d, htrim, hd⟩ := exists_trimEnd_append hblank
    rw [htrim, List.getLast?_concat] at hc
    exact Option.some.inj hc ▸ hd

theorem endsInInk_concat {c : Char} (hc : isBlank c = false) (a : List Char) :
    EndsInInk (a ++ [c]) := by
  intro d hd
  rw [List.getLast?_concat] at hd
  exact Option.some.inj hd ▸ hc

theorem EndsInInk.of_append {g cs : List Char} {c : Char} (h : EndsInInk (g ++ c :: cs)) :
    EndsInInk cs := by
  intro d hd
  refine h d ?_
  rw [List.append_cons, List.getLast?_append, hd]
  rfl

theorem eq_nil_of_endsInInk {g : List Char} (hg : allBlank g = true) (h : EndsInInk g) : g = [] := by
  cases hlast : g.getLast? with
  | none => exact List.getLast?_eq_none_iff.1 hlast
  | some c =>
    have hblank : isBlank c = true := List.all_eq_true.1 hg c (List.mem_of_getLast? hlast)
    exact absurd (hblank.symm.trans (h c hlast)) nofun

section Reindent

variable {n : Nat} {g a b cs : List Char} {c : Char}

theorem reindentFrom_blank_append (hb : allBlank b = true) (g cs : List Char) :
    reindentFrom n g (b ++ cs) = reindentFrom n (g ++ b) cs := by
  induction b generalizing g with
  | nil => rw [List.append_nil]; rfl
  | cons c b ih =>
    rw [allBlank, List.all_cons, Bool.and_eq_true] at hb
    rw [List.cons_append, reindentFrom, if_pos hb.1, ih hb.2, List.append_assoc]
    rfl

theorem reindent_run (hg : allBlank g = true) (hc : isBlank c = false) (cs : List Char) :
    reindent n (g ++ c :: cs) = reindentGap n g ++ c :: reindent n cs := by
  unfold reindent
  rw [reindentFrom_blank_append hg, reindentFrom, if_neg (by rw [hc]; exact Bool.false_ne_true)]
  rfl

theorem reindent_of_allBlank (hg : allBlank g = true) : reindent n g = [] := by
  have := reindentFrom_blank_append (n := n) hg [] []
  rw [List.append_nil] at this
  exact this

/-- A text that ends in no blank is laid out apart from what follows it. -/
theorem reindent_append (ha : EndsInInk a) (b : List Char) :
    reindent n (a ++ b) = reindent n a ++ reindent n b := by
  induction a using runs_induction with
  | blank g hg =>
    rw [eq_nil_of_endsInInk hg ha]
    rfl
  | run g c cs hg hc ih =>
    rw [List.append_assoc, List.cons_append, reindent_run hg hc, reindent_run hg hc, ih ha.of_append,
      List.append_assoc]
    rfl

/-- A text without line feeds stays. -/
theorem reindent_of_not_mem (hline : '\n' ∉ a) (ha : EndsInInk a) : reindent n a = a := by
  induction a using runs_induction with
  | blank g hg =>
    rw [eq_nil_of_endsInInk hg ha]
    rfl
  | run g c cs hg hc ih =>
    rw [List.mem_append, not_or, List.mem_cons, not_or] at hline
    rw [reindent_run hg hc, reindentGap, if_neg hline.1, ih hline.2.2 ha.of_append]

theorem lastLine_append (hline : '\n' ∉ a) : lastLine (g ++ '\n' :: a) = a := by
  have hall : ∀ c ∈ a.reverse, (c != '\n') = true := fun c hc => by
    rw [bne_iff_ne]
    rintro rfl
    exact hline (List.mem_reverse.1 hc)
  have hreverse : (g ++ '\n' :: a).reverse = a.reverse ++ '\n' :: g.reverse := by simp
  unfold lastLine
  rw [hreverse, List.takeWhile_append_of_pos hall, List.takeWhile_cons, if_neg (by simp),
    List.append_nil, List.reverse_reverse]

/-- Behind line feeds the last line loses indentation. -/
theorem reindentGap_append (hline : '\n' ∉ a) :
    reindentGap n (g ++ '\n' :: a) =
      (if '\n' ∈ g then ['\n', '\n'] else ['\n']) ++ '\t' :: dropBytes n a := by
  have hcount : 2 ≤ (g ++ '\n' :: a).count '\n' ↔ '\n' ∈ g := by
    rw [List.count_append, List.count_cons_self, List.count_eq_zero.2 hline,
      ← List.one_le_count_iff]
    omega
  unfold reindentGap
  rw [if_pos (List.mem_append_right _ List.mem_cons_self), lastLine_append hline]
  simp only [hcount]

theorem allBlank_reindentGap (hg : allBlank g = true) : allBlank (reindentGap n g) = true := by
  unfold reindentGap
  split
  · have hlast : allBlank (dropBytes n (lastLine g)) = true := by
      refine List.all_eq_true.2 fun c hc => List.all_eq_true.1 hg c ?_
      have hmem := (isSuffix_dropBytes n (lastLine g)).subset hc
      exact List.mem_reverse.1 ((List.takeWhile_prefix _).subset (List.mem_reverse.1 hmem))
    refine allBlank_append.2 ⟨?_, hlast⟩
    split <;> rfl
  · exact hg

theorem newline_mem_reindentGap (hline : '\n' ∈ g) : '\n' ∈ reindentGap n g := by
  unfold reindentGap
  rw [if_pos hline]
  refine List.mem_append_left _ ?_
  split <;> exact List.mem_cons_self

/-- A text with its blanks laid out anew differs from it in its layout only. -/
theorem relaid_reindent (cs : List Char) : Relaid (cs ++ ['\n']) (reindent n cs ++ ['\n']) := by
  induction cs using runs_induction with
  | blank g hg =>
    rw [reindent_of_allBlank hg]
    have hall : allBlank (g ++ ['\n']) = true := allBlank_append.2 ⟨hg, rfl⟩
    have hgap := @Relaid.gap _ ['\n'] [] [] hall rfl (by simp) (by simp) .nil
    rwa [List.append_nil] at hgap
  | run g c cs hg hc ih =>
    rw [reindent_run hg hc, List.append_assoc, List.append_assoc]
    by_cases hline : '\n' ∈ g
    · exact .gap hg (allBlank_reindentGap hg) hline (newline_mem_reindentGap hline) (.char c ih)
    · rw [reindentGap, if_neg hline]
      exact Relaid.append_left (.char c ih) g

end Reindent

/-! ## Lines -/

/-- A line with a tab in place of a number of bytes at its start, and its line feed. -/
def retabbed (n : Nat) (l : List Char) : List Char :=
  if l.isEmpty then ['\n'] else '\t' :: (dropBytes n l ++ ['\n'])

/-- A line begins with a number of bytes of blanks. -/
def Indented (n : Nat) (l : List Char) : Prop :=
  ∃ x y, l = x ++ y ∧ allBlank x = true ∧ byteLength x = n

section Lines

variable {n : Nat} {a q rest : List Char}

/-- What a line loses it loses of its indentation. -/
theorem dropBytes_indent {g mid : List Char} {c : Char} (hc : isBlank c = false)
    (h : Indented n (g ++ c :: mid)) :
    dropBytes n (g ++ c :: mid) = dropBytes n g ++ c :: mid := by
  obtain ⟨x, y, heq, hx, rfl⟩ := h
  obtain ⟨z, rfl⟩ : ∃ z, g = x ++ z := by
    rcases List.append_eq_append_iff.1 heq with ⟨z, rfl, hz⟩ | ⟨z, rfl, -⟩
    · cases z with
      | nil => exact ⟨[], by simp⟩
      | cons d z =>
        obtain rfl := (List.cons.inj hz).1
        exact absurd ((List.all_eq_true.1 hx c (by simp)).symm.trans hc) nofun
    · exact ⟨z, rfl⟩
  rw [List.append_assoc, dropBytes_append, dropBytes_append]

/-- The line feed before a line that is not blank, the line itself, and the blanks at its end. -/
theorem reindent_line_append (hq : allBlank q = true) (hline : '\n' ∉ a)
    (hblank : allBlank a = false) (hindent : Indented n (trimEnd a)) (rest : List Char) :
    ∃ tail, a = trimEnd a ++ tail ∧ allBlank tail = true ∧
      reindent n (q ++ '\n' :: (a ++ rest)) = (if '\n' ∈ q then ['\n', '\n'] else ['\n']) ++
        '\t' :: (dropBytes n (trimEnd a) ++ reindent n (tail ++ rest)) := by
  obtain ⟨tail, ha, htail⟩ := exists_trimEnd a
  have hink := endsInInk_trimEnd a
  have hblank' : allBlank (trimEnd a) = false := by
    refine Bool.eq_false_iff.2 fun htrim => ?_
    rw [ha, allBlank_append.2 ⟨htrim, htail⟩] at hblank
    exact absurd hblank nofun
  obtain ⟨g, c, mid, htrim, hg, hc⟩ := exists_run hblank'
  rw [htrim] at ha hindent hink ⊢
  rw [ha] at hline
  simp only [List.mem_append, List.mem_cons, not_or] at hline
  obtain ⟨⟨hlineg, -, hlinemid⟩, -⟩ := hline
  have hgap : allBlank (q ++ '\n' :: g) = true := allBlank_append.2 ⟨hq, hg⟩
  have hfirst : reindent n (q ++ '\n' :: (g ++ c :: mid)) =
      (if '\n' ∈ q then ['\n', '\n'] else ['\n']) ++ '\t' :: dropBytes n (g ++ c :: mid) := by
    have hsplit : q ++ '\n' :: (g ++ c :: mid) = (q ++ '\n' :: g) ++ c :: mid := by simp
    rw [hsplit, reindent_run hgap hc, reindentGap_append hlineg,
      reindent_of_not_mem hlinemid hink.of_append, dropBytes_indent hc hindent]
    simp
  have hinkq : EndsInInk (q ++ '\n' :: (g ++ c :: mid)) := by
    intro d hd
    refine hink d ?_
    rw [List.getLast?_append, List.getLast?_cons] at hd
    rw [List.getLast?_append, List.getLast?_cons] at hd ⊢
    simpa using hd
  refine ⟨tail, ha, htail, ?_⟩
  have hsplit : q ++ '\n' :: (a ++ rest) = (q ++ '\n' :: (g ++ c :: mid)) ++ (tail ++ rest) := by
    conv => lhs; rw [ha]
    simp
  rw [hsplit, reindent_append hinkq, hfirst]
  simp

theorem flatMap_squeeze_cons {l : List Char} (hl : l ≠ []) (gap : Bool) (ls : List (List Char)) :
    (squeeze gap (l :: ls)).flatMap (retabbed n) = (if gap then ['\n'] else []) ++
      '\t' :: (dropBytes n l ++ '\n' :: (squeeze false ls).flatMap (retabbed n)) := by
  have hempty : l.isEmpty = false := by simpa using hl
  cases gap <;> simp [squeeze, retabbed, hempty]

theorem trimEnd_ne_nil (h : allBlank a = false) : trimEnd a ≠ [] := by
  obtain ⟨init, d, htrim, -⟩ := exists_trimEnd_append h
  rw [htrim]
  exact List.append_ne_nil_of_right_ne_nil init (List.cons_ne_nil d [])

/-- A line that is not blank, before lines that are the text behind it laid out anew. -/
theorem newline_cons_flatMap_squeeze_cons (ha : '\n' ∉ a) (hblank : allBlank a = false)
    (hindent : Indented n (trimEnd a)) (hq : allBlank q = true) {ls : List (List Char)}
    (hls : ∀ tail, a = trimEnd a ++ tail → allBlank tail = true →
      '\n' :: (squeeze false ls).flatMap (retabbed n) = reindent n (tail ++ rest) ++ ['\n']) :
    '\n' :: (squeeze (decide ('\n' ∈ q)) (trimEnd a :: ls)).flatMap (retabbed n) =
      reindent n (q ++ '\n' :: (a ++ rest)) ++ ['\n'] := by
  obtain ⟨tail, htail, htailBlank, hreindent⟩ := reindent_line_append hq ha hblank hindent rest
  rw [hreindent, flatMap_squeeze_cons (trimEnd_ne_nil hblank), hls tail htail htailBlank]
  by_cases hmem : '\n' ∈ q <;> simp [hmem]

theorem map_trimEnd_lines_of_allBlank (ha : '\n' ∉ a) (h : allBlank a = true) :
    (lines a).map trimEnd = [] ∨ (lines a).map trimEnd = [[]] := by
  rw [lines, linesAux_of_not_mem ha, List.reverse_nil, List.nil_append]
  split
  · exact .inl rfl
  · rw [List.map_singleton, trimEnd_of_allBlank h]
    exact .inr rfl

theorem map_trimEnd_lines_of_not_allBlank (ha : '\n' ∉ a) (h : allBlank a = false) :
    (lines a).map trimEnd = [trimEnd a] := by
  have hempty : a.isEmpty = false := by
    cases a with
    | nil => exact absurd h nofun
    | cons c a => rfl
  rw [lines, linesAux_of_not_mem ha, List.reverse_nil, List.nil_append, hempty]
  rfl

theorem map_trimEnd_lines_newline (ha : '\n' ∉ a) (b : List Char) :
    (lines (a ++ '\n' :: b)).map trimEnd = trimEnd a :: (lines b).map trimEnd := by
  rw [lines, linesAux_newline ha, List.map_cons, trimEnd_endLine, List.append_nil,
    List.reverse_reverse]

/-- The lines of a text, retabbed, are the text laid out anew behind a line feed. Of several line feeds
two are left. -/
theorem newline_cons_flatMap_squeeze {u : List Char}
    (hindent : ∀ l ∈ (lines u).map trimEnd, l ≠ [] → Indented n l) (hq : allBlank q = true) :
    '\n' :: (squeeze (decide ('\n' ∈ q)) ((lines u).map trimEnd)).flatMap (retabbed n) =
      reindent n (q ++ '\n' :: u) ++ ['\n'] := by
  induction u using lines_induction generalizing q with
  | line a ha =>
    cases hblank : allBlank a with
    | true =>
      have hall : allBlank (q ++ '\n' :: a) = true := allBlank_append.2 ⟨hq, hblank⟩
      rw [reindent_of_allBlank hall]
      rcases map_trimEnd_lines_of_allBlank ha hblank with h | h <;> rw [h] <;> rfl
    | false =>
      rw [map_trimEnd_lines_of_not_allBlank ha hblank] at hindent ⊢
      have hfirst := hindent (trimEnd a) List.mem_cons_self (trimEnd_ne_nil hblank)
      have hnext (tail : List Char) (_ : a = trimEnd a ++ tail) (htail : allBlank tail = true) :
          '\n' :: (squeeze false []).flatMap (retabbed n) = reindent n (tail ++ []) ++ ['\n'] := by
        rw [List.append_nil, reindent_of_allBlank htail]
        rfl
      have hwhole := newline_cons_flatMap_squeeze_cons ha hblank hfirst hq hnext
      rwa [List.append_nil] at hwhole
  | more a b ha ih =>
    rw [map_trimEnd_lines_newline ha] at hindent ⊢
    have hlater : ∀ l ∈ (lines b).map trimEnd, l ≠ [] → Indented n l := fun l hl =>
      hindent l (List.mem_cons_of_mem _ hl)
    cases hblank : allBlank a with
    | true =>
      -- the blank line is one more line feed before the others
      have hq' : allBlank (q ++ '\n' :: a) = true := allBlank_append.2 ⟨hq, hblank⟩
      have hmem : '\n' ∈ q ++ '\n' :: a := List.mem_append_right q List.mem_cons_self
      have hrest := ih hlater hq'
      rw [decide_eq_true hmem, List.append_assoc] at hrest
      rw [trimEnd_of_allBlank hblank]
      exact hrest
    | false =>
      have hfirst := hindent (trimEnd a) List.mem_cons_self (trimEnd_ne_nil hblank)
      refine newline_cons_flatMap_squeeze_cons ha hblank hfirst hq fun tail htail htailBlank => ?_
      have hmem : '\n' ∉ tail := fun h => ha (htail ▸ List.mem_append_right _ h)
      have hrest := ih hlater htailBlank
      rwa [decide_eq_false hmem] at hrest

theorem EndsInInk.of_suffix {a b : List Char} (h : EndsInInk (a ++ b)) : EndsInInk b := by
  intro c hc
  refine h c ?_
  rw [List.getLast?_append, hc]
  rfl

theorem endLine_reverse {l : List Char} (h : EndsInInk l) : endLine l.reverse = l := by
  unfold endLine
  split
  · rename_i run hrun
    have hlast : l.getLast? = some '\r' := by rw [List.getLast?_eq_head?_reverse, hrun]; rfl
    exact absurd (h '\r' hlast) (by decide)
  · exact List.reverse_reverse l

/-- Joined lines are read as lines again, when none ends in a blank and the last one is not empty. -/
theorem lines_joinLines {ls : List (List Char)} (hline : ∀ l ∈ ls, '\n' ∉ l)
    (hink : ∀ l ∈ ls, EndsInInk l) (hlast : ∀ l ∈ ls.getLast?, l ≠ []) :
    lines (joinLines ls) = ls := by
  induction ls with
  | nil => rfl
  | cons l ls ih =>
    have hl := hline l List.mem_cons_self
    cases ls with
    | nil =>
      have hempty : l.isEmpty = false := by simpa using hlast l rfl
      rw [joinLines, lines, linesAux_of_not_mem hl, List.reverse_nil, List.nil_append, hempty]
      rfl
    | cons l' ls =>
      have hrest := ih (fun x hx => hline x (List.mem_cons_of_mem l hx))
        (fun x hx => hink x (List.mem_cons_of_mem l hx)) hlast
      rw [joinLines, lines, linesAux_newline hl, List.append_nil,
        endLine_reverse (hink l List.mem_cons_self), hrest]
      exact List.cons_ne_nil l' ls

/-- The last of the lines that are left is not empty. -/
theorem ne_nil_of_mem_getLast?_squeeze (gap : Bool) (ls : List (List Char)) :
    ∀ l ∈ (squeeze gap ls).getLast?, l ≠ [] := by
  induction ls generalizing gap with
  | nil => exact nofun
  | cons x ls ih =>
    have hlast (hx : x ≠ []) : ∀ l ∈ (x :: squeeze false ls).getLast?, l ≠ [] := by
      intro l hl
      rw [List.getLast?_cons] at hl
      cases hrest : (squeeze false ls).getLast? with
      | none =>
        rw [hrest] at hl
        exact Option.some.inj hl ▸ hx
      | some z =>
        rw [hrest] at hl
        exact Option.some.inj hl ▸ ih false z hrest
    rw [squeeze]
    split
    · exact ih true
    · rename_i hx
      have hlast := hlast (by simpa using hx)
      split
      · rw [List.getLast?_cons_cons]
        exact hlast
      · exact hlast

/-! ## Texts that are laid out anew -/

/-- The number of bytes that the lines of a text are indented by in common. -/
def sharedIndent (u : List Char) : Nat :=
  commonIndentation ((lines u).map trimEnd)

/-- The paragraphs of a text are its lines from the first one on that is not blank. -/
theorem exists_paragraphs (u : List Char) : ∃ e u', u = e ++ u' ∧ allBlank e = true ∧
    paragraphs ((lines u).map trimEnd) = squeeze false ((lines u').map trimEnd) := by
  -- nothing is left out before a line that is not blank
  have hkept {a : List Char} (h : allBlank a = false) (ls : List (List Char)) :
      paragraphs (trimEnd a :: ls) = squeeze false (trimEnd a :: ls) := by
    unfold paragraphs
    rw [List.dropWhile_cons_of_neg (by simpa using trimEnd_ne_nil h)]
  induction u using lines_induction with
  | line a ha =>
    cases hblank : allBlank a with
    | true =>
      refine ⟨a, [], (List.append_nil a).symm, hblank, ?_⟩
      rcases map_trimEnd_lines_of_allBlank ha hblank with h | h <;> rw [h] <;> rfl
    | false =>
      refine ⟨[], a, rfl, rfl, ?_⟩
      rw [map_trimEnd_lines_of_not_allBlank ha hblank]
      exact hkept hblank []
  | more a b ha ih =>
    cases hblank : allBlank a with
    | true =>
      obtain ⟨e, u', rfl, he, hparagraphs⟩ := ih
      refine ⟨a ++ '\n' :: e, u', by simp, allBlank_append.2 ⟨hblank, he⟩, ?_⟩
      rw [map_trimEnd_lines_newline ha, trimEnd_of_allBlank hblank, paragraphs_nil_cons, hparagraphs]
    | false =>
      refine ⟨[], a ++ '\n' :: b, rfl, rfl, ?_⟩
      rw [map_trimEnd_lines_newline ha]
      exact hkept hblank _

/-- A line that can lose a number of bytes of its indentation begins with as many bytes of blanks. -/
theorem indented_of_dedentLine? {n : Nat} {l l' : List Char} (h : dedentLine? n l = some l')
    (hne : l ≠ []) (hn : n ≤ indentation l) : Indented n l ∧ l' = dropBytes n l := by
  have hempty : l.isEmpty = false := by simpa using hne
  obtain ⟨blank, heq, hblank⟩ := exists_of_dedentLine? h fun _ => hn
  rw [dedentLine?, hempty] at h
  obtain ⟨x, rfl, rfl⟩ := dropBytes?_eq_some_iff.1 h
  rw [← List.append_cancel_right heq] at hblank
  exact ⟨⟨x, l', rfl, hblank, rfl⟩, (dropBytes_append x l').symm⟩

theorem dropBytes_nil (n : Nat) : dropBytes n [] = [] := by
  cases n <;> rfl

/-- What a line that ends in no blank keeps behind its indentation is not empty. -/
theorem Indented.dropBytes_ne_nil {n : Nat} {l : List Char} (h : Indented n l) (hink : EndsInInk l)
    (hne : l ≠ []) : dropBytes n l ≠ [] := by
  obtain ⟨x, y, rfl, hx, rfl⟩ := h
  rw [dropBytes_append]
  rintro rfl
  rw [List.append_nil] at hink hne
  exact hne (eq_nil_of_endsInInk hx hink)

/-- What is known of a line of a text that can be laid out anew. -/
theorem mem_paragraphs_of_tidy? {u kept l : List Char} (h : tidy? u = some kept)
    (hl : l ∈ paragraphs ((lines u).map trimEnd)) (hne : l ≠ []) :
    EndsInInk l ∧ '\n' ∉ l ∧ Indented (sharedIndent u) l := by
  have hmem := (mem_paragraphs hl).resolve_left hne
  obtain ⟨l₀, hl₀, htrim⟩ := List.mem_map.1 hmem
  obtain ⟨tail, htail, -⟩ := exists_trimEnd l₀
  refine ⟨htrim ▸ endsInInk_trimEnd l₀, fun hline => ?_, ?_⟩
  · refine not_mem_lines hl₀ ?_
    rw [htail, htrim]
    exact List.mem_append_left tail hline
  · unfold tidy? at h
    obtain ⟨ds, hds, -⟩ := Option.map_eq_some_iff.1 h
    rw [commonIndentation_paragraphs, ← sharedIndent] at hds
    obtain ⟨l', hl'⟩ : ∃ l', dedentLine? (sharedIndent u) l = some l' := by
      refine Option.ne_none_iff_exists'.1 fun hnone => ?_
      rw [mapM_eq_none_iff.2 ⟨l, hl, hnone⟩] at hds
      exact absurd hds nofun
    exact (indented_of_dedentLine? hl' hne
      (commonIndentation_le hmem (by simpa using hne))).1

/-- Laying out anew takes what all lines share off each of them. -/
theorem tidy?_eq_some {u kept : List Char} (h : tidy? u = some kept) :
    kept = joinLines ((paragraphs ((lines u).map trimEnd)).map (dropBytes (sharedIndent u))) := by
  unfold tidy? at h
  obtain ⟨ds, hds, rfl⟩ := Option.map_eq_some_iff.1 h
  rw [commonIndentation_paragraphs] at hds
  have hmap := (@map_of_mapM _ _ _ _ id (dropBytes (sharedIndent u)) _ _ hds fun l hl l' hl' => by
    by_cases hne : l = []
    · subst hne
      exact (Option.some.inj hl').symm.trans (dropBytes_nil _).symm
    · have hmem := (mem_paragraphs hl).resolve_left hne
      exact (indented_of_dedentLine? hl' hne
        (commonIndentation_le hmem (by simpa using hne))).2).1
  rw [← hmap, List.map_id]

/-- What is left of a line behind the shared indentation, and the line that it is indented to again. -/
theorem dropBytes_of_mem_paragraphs {u kept l : List Char} (h : tidy? u = some kept)
    (hl : l ∈ paragraphs ((lines u).map trimEnd)) :
    EndsInInk (dropBytes (sharedIndent u) l) ∧ '\n' ∉ dropBytes (sharedIndent u) l ∧
      (l ≠ [] → dropBytes (sharedIndent u) l ≠ []) ∧
      retabbed 0 (dropBytes (sharedIndent u) l) = retabbed (sharedIndent u) l := by
  by_cases hne : l = []
  · subst hne
    rw [dropBytes_nil]
    exact ⟨nofun, List.not_mem_nil, fun h => h, rfl⟩
  · obtain ⟨hink, hline, hindent⟩ := mem_paragraphs_of_tidy? h hl hne
    have hdrop := hindent.dropBytes_ne_nil hink hne
    obtain ⟨x, hx⟩ := isSuffix_dropBytes (sharedIndent u) l
    have hempty : l.isEmpty = false := by simpa using hne
    have hempty' : (dropBytes (sharedIndent u) l).isEmpty = false := by simpa using hdrop
    refine ⟨EndsInInk.of_suffix (hx.symm ▸ hink),
      fun hmem => hline (hx ▸ List.mem_append_right x hmem), fun _ => hdrop, ?_⟩
    rw [retabbed, retabbed, hempty, hempty', dropBytes_zero]

/-- The lines of a text that is laid out anew are its paragraphs without what they share. -/
theorem lines_of_tidy? {u kept : List Char} (h : tidy? u = some kept) :
    lines kept = (paragraphs ((lines u).map trimEnd)).map (dropBytes (sharedIndent u)) := by
  have hkept {l : List Char} := @dropBytes_of_mem_paragraphs u kept l h
  rw [tidy?_eq_some h]
  refine lines_joinLines (fun d hd => ?_) (fun d hd => ?_) fun d hd => ?_
  · obtain ⟨l, hl, rfl⟩ := List.mem_map.1 hd
    exact (hkept hl).2.1
  · obtain ⟨l, hl, rfl⟩ := List.mem_map.1 hd
    exact (hkept hl).1
  · rw [List.getLast?_map] at hd
    obtain ⟨l, hl, rfl⟩ := Option.map_eq_some_iff.1 hd
    exact (hkept (List.mem_of_getLast? hl)).2.2.1 (ne_nil_of_mem_getLast?_squeeze false _ l hl)

/-- The lines of a text that is laid out anew, with one more tab before each, are the text from its first
line on that is not blank, with its blanks laid out anew behind a line feed. -/
theorem exists_indented_tidy? {u kept : List Char} (h : tidy? u = some kept) :
    ∃ e u', u = e ++ u' ∧ allBlank e = true ∧
      '\n' :: (lines kept).flatMap (retabbed 0) =
        reindent (sharedIndent u) ('\n' :: u') ++ ['\n'] := by
  obtain ⟨e, u', hu, he, hparagraphs⟩ := exists_paragraphs u
  refine ⟨e, u', hu, he, ?_⟩
  have hindent {l : List Char} := @mem_paragraphs_of_tidy? u kept l h
  have hkept {l : List Char} := @dropBytes_of_mem_paragraphs u kept l h
  rw [lines_of_tidy? h]
  rw [hparagraphs] at hindent hkept ⊢
  generalize sharedIndent u = n at hindent hkept ⊢
  have hretab : ((squeeze false ((lines u').map trimEnd)).map (dropBytes n)).flatMap (retabbed 0) =
      (squeeze false ((lines u').map trimEnd)).flatMap (retabbed n) := by
    rw [List.flatMap_map, List.flatMap_def, List.flatMap_def]
    exact congrArg List.flatten (List.map_congr_left fun l hl => (hkept hl).2.2.2)
  have hmem {l : List Char} (hl : l ∈ (lines u').map trimEnd) (hne : l ≠ []) :
      l ∈ squeeze false ((lines u').map trimEnd) := by
    have hempty : (!l.isEmpty) = true := by simpa using hne
    have hfilter : l ∈ (squeeze false ((lines u').map trimEnd)).filter (!·.isEmpty) := by
      rw [filter_squeeze]
      exact List.mem_filter.2 ⟨hl, hempty⟩
    exact (List.mem_filter.1 hfilter).1
  rw [hretab]
  exact newline_cons_flatMap_squeeze (q := [])
    (fun l hl hne => (hindent (hmem hl hne) hne).2.2) rfl

end Lines

end RpcBindings.Text
