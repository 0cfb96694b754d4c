import RpcBindings.Text.Blank

/-!
Blanks at the ends of texts and between words.
-/

namespace RpcBindings.Text

/-- The blanks of one byte. -/
theorem eq_of_isBlank {c : Char} (h : isBlank c = true) (hc : c.utf8Size = 1) :
    c = ' ' ∨ c = '\n' ∨ c = '\t' ∨ c = '\r' ∨ c = '\x0b' ∨ c = '\x0c' := by
  have hlt : c.toNat < 128 := by
    have := Char.utf8Size_eq_one_iff.1 hc
    have : c.toNat ≤ 127 := this
    omega
  unfold isBlank at h
  simp only [Bool.or_eq_true, Bool.and_eq_true, decide_eq_true_eq, beq_iff_eq] at h
  have hnat : c.toNat = 32 ∨ c.toNat = 10 ∨ c.toNat = 9 ∨ c.toNat = 13 ∨ c.toNat = 11 ∨
      c.toNat = 12 := by omega
  have heq {d : Char} (hd : c.toNat = d.toNat) : c = d := Char.toNat_inj.1 hd
  rcases hnat with h | h | h | h | h | h
  · exact .inl (heq h)
  · exact .inr (.inl (heq h))
  · exact .inr (.inr (.inl (heq h)))
  · exact .inr (.inr (.inr (.inl (heq h))))
  · exact .inr (.inr (.inr (.inr (.inl (heq h)))))
  · exact .inr (.inr (.inr (.inr (.inr (heq h)))))

/-- A text is the blanks at its start, and what is left of it without them. -/
theorem exists_trimStart (cs : List Char) :
    ∃ head, cs = head ++ trimStart cs ∧ allBlank head = true :=
  ⟨cs.takeWhile isBlank, List.takeWhile_append_dropWhile.symm, List.all_takeWhile⟩

theorem trimStart_append {blank : List Char} {c : Char} (h : allBlank blank = true)
    (hc : isBlank c = false) (rest : List Char) :
    trimStart (blank ++ c :: rest) = c :: rest := by
  unfold trimStart
  rw [List.dropWhile_append_of_pos fun b hb => List.all_eq_true.1 h b hb]
  exact List.dropWhile_cons_of_neg (by simpa using hc)

theorem trimEnd_append {blank : List Char} {c : Char} (h : allBlank blank = true)
    (hc : isBlank c = false) (head : List Char) :
    trimEnd (head ++ c :: blank) = head ++ [c] := by
  have hrev : allBlank blank.reverse = true := by rwa [allBlank, List.all_reverse]
  have := trimStart_append hrev hc head.reverse
  unfold trimStart at this
  unfold trimEnd
  rw [List.reverse_append, List.reverse_cons, List.append_assoc, List.singleton_append, this]
  simp

/-- A text is what is left of it without the blanks at its end, and these blanks. -/
theorem exists_trimEnd (cs : List Char) : ∃ tail, cs = trimEnd cs ++ tail ∧ allBlank tail = true := by
  refine ⟨(cs.reverse.takeWhile isBlank).reverse, ?_, ?_⟩
  · rw [trimEnd, ← List.reverse_append, List.takeWhile_append_dropWhile, List.reverse_reverse]
  · rw [allBlank, List.all_reverse, List.all_takeWhile]

/-- The first blank of a text separates what stands before it from what follows. -/
theorem splitAtBlank?_eq_some {cs before after : List Char}
    (h : splitAtBlank? cs = some (before, after)) :
    ∃ blank, cs = before ++ blank :: after ∧ isBlank blank = true ∧
      ∀ c ∈ before, isBlank c = false := by
  unfold splitAtBlank? at h
  have hsplit := List.takeWhile_append_dropWhile (p := fun c => !isBlank c) (l := cs)
  split at h
  · simp at h
  · rename_i blank rest hrest
    obtain ⟨rfl, rfl⟩ := Prod.mk.inj (Option.some.inj h)
    refine ⟨blank, ?_, ?_, fun c hc => ?_⟩
    · rw [← hrest, hsplit]
    · have := List.head?_dropWhile_not (fun c => !isBlank c) cs
      simpa [hrest] using this
    · have := List.all_eq_true.1 (List.all_takeWhile (p := fun c => !isBlank c) (l := cs)) c hc
      simpa using this

theorem allBlank_append {a b : List Char} :
    allBlank (a ++ b) = true ↔ allBlank a = true ∧ allBlank b = true := by
  unfold allBlank
  rw [List.all_append, Bool.and_eq_true]

theorem allBlank_space_cons (a : List Char) : allBlank (' ' :: a) = allBlank a := by
  show (isBlank ' ' && allBlank a) = allBlank a
  rw [isBlank_space, Bool.true_and]

/-- A text that is not blank ends, without the blanks at its end, in a character that is none. -/
theorem exists_trimEnd_append {b : List Char} (h : allBlank b = false) :
    ∃ init c, trimEnd b = init ++ [c] ∧ isBlank c = false := by
  obtain ⟨tail, hb, htail⟩ := exists_trimEnd b
  unfold trimEnd at hb ⊢
  cases hd : b.reverse.dropWhile isBlank with
  | nil =>
    rw [hd, List.reverse_nil, List.nil_append] at hb
    rw [hb, htail] at h
    exact absurd h (by decide)
  | cons c rest =>
    refine ⟨rest.reverse, c, by rw [List.reverse_cons], ?_⟩
    have := List.head?_dropWhile_not isBlank b.reverse
    simpa [hd] using this

/-- What stands before a text that is not blank stays. -/
theorem trimEnd_append_of_not_allBlank {b : List Char} (h : allBlank b = false) (a : List Char) :
    trimEnd (a ++ b) = a ++ trimEnd b := by
  obtain ⟨tail, hb, htail⟩ := exists_trimEnd b
  obtain ⟨init, c, htrim, hc⟩ := exists_trimEnd_append h
  have := trimEnd_append htail hc (a ++ init)
  rw [hb, htrim]
  simp only [List.append_assoc, List.singleton_append] at this ⊢
  rw [this, trimEnd_append htail hc]

theorem trimEnd_of_allBlank {b : List Char} (h : allBlank b = true) : trimEnd b = [] := by
  have hall : ∀ c ∈ b.reverse, isBlank c = true := fun c hc =>
    List.all_eq_true.1 h c (List.mem_reverse.1 hc)
  have hdrop : (b.reverse ++ []).dropWhile isBlank = [].dropWhile isBlank :=
    List.dropWhile_append_of_pos hall
  unfold trimEnd
  rw [← List.append_nil b.reverse, hdrop]
  rfl

theorem trimEnd_trimEnd (b : List Char) : trimEnd (trimEnd b) = trimEnd b := by
  cases h : allBlank b with
  | true =>
    rw [trimEnd_of_allBlank h]
    rfl
  | false =>
    obtain ⟨init, c, htrim, hc⟩ := exists_trimEnd_append h
    rw [htrim]
    exact @trimEnd_append [] c rfl hc init

/-- A character that is not blank stays before all that is trimmed. -/
theorem trimEnd_cons {c : Char} (hc : isBlank c = false) (cs : List Char) :
    trimEnd (c :: cs) = c :: trimEnd cs := by
  cases h : allBlank cs with
  | true =>
    rw [trimEnd_of_allBlank h]
    exact @trimEnd_append cs c h hc []
  | false => exact trimEnd_append_of_not_allBlank h [c]

theorem trimStart_of_not_isBlank {a : List Char} (h : ∀ c ∈ a, isBlank c = false) :
    trimStart a = a := by
  cases a with
  | nil => rfl
  | cons c a => exact List.dropWhile_cons_of_neg (by rw [h c List.mem_cons_self]; simp)

theorem trim_of_not_isBlank {a : List Char} (h : ∀ c ∈ a, isBlank c = false) : trim a = a := by
  have hreverse := trimStart_of_not_isBlank fun c hc => h c (List.mem_reverse.1 hc)
  unfold trimStart at hreverse
  unfold trim trimEnd
  rw [trimStart_of_not_isBlank h, hreverse, List.reverse_reverse]

theorem trimStart_trim (a : List Char) : trimStart (trim a) = trim a := by
  obtain ⟨tail, htail, hblank⟩ := exists_trimEnd (trimStart a)
  unfold trim
  cases hend : trimEnd (trimStart a) with
  | nil => rfl
  | cons c rest =>
    rw [hend] at htail
    have hc := List.head?_dropWhile_not isBlank a
    rw [show a.dropWhile isBlank = _ from htail] at hc
    exact List.dropWhile_cons_of_neg (by simpa using hc)

theorem mem_of_mem_trim {c : Char} {cs : List Char} (h : c ∈ trim cs) : c ∈ cs := by
  obtain ⟨tail, htail, -⟩ := exists_trimEnd (trimStart cs)
  have hstart : c ∈ trimStart cs := htail ▸ List.mem_append_left tail h
  exact (List.dropWhile_sublist _).subset hstart

/-- A text without blanks around it does not begin with one. -/
theorem not_isBlank_of_trim_eq {c : Char} {cs : List Char} (h : trim (c :: cs) = c :: cs) :
    isBlank c = false := by
  refine Bool.eq_false_iff.2 fun hc => ?_
  obtain ⟨tail, htail, -⟩ := exists_trimEnd (trimStart (c :: cs))
  have hstart : trimStart (c :: cs) = cs.dropWhile isBlank := List.dropWhile_cons_of_pos hc
  have hlen := congrArg List.length htail
  have hdrop : (cs.dropWhile isBlank).length ≤ cs.length := (List.dropWhile_sublist _).length_le
  rw [List.length_append, show trimEnd (trimStart (c :: cs)) = c :: cs from h, hstart,
    List.length_cons] at hlen
  omega

theorem splitAtBlank?_append {a b : List Char} {blank : Char} (ha : ∀ c ∈ a, isBlank c = false)
    (hblank : isBlank blank = true) : splitAtBlank? (a ++ blank :: b) = some (a, b) := by
  have hpos : ∀ c ∈ a, (!isBlank c) = true := fun c hc => by rw [ha c hc]; rfl
  unfold splitAtBlank?
  rw [List.dropWhile_append_of_pos hpos, List.takeWhile_append_of_pos hpos,
    List.dropWhile_cons_of_neg (by simp [hblank]), List.takeWhile_cons_of_neg (by simp [hblank]),
    List.append_nil]

/-! ## Words -/

theorem wordsAux_append {a : List Char} (ha : ∀ c ∈ a, isBlank c = false) (run b : List Char) :
    wordsAux run (a ++ b) = wordsAux (a.reverse ++ run) b := by
  induction a generalizing run with
  | nil => rfl
  | cons c a ih =>
    rw [List.cons_append, wordsAux, ha c List.mem_cons_self]
    simp only [Bool.false_eq_true, if_false]
    rw [ih (fun d hd => ha d (List.mem_cons_of_mem c hd)), List.reverse_cons, List.append_assoc]
    rfl

/-- A blank between two words separates them. -/
theorem words_pair {a b : List Char} (ha : ∀ c ∈ a, isBlank c = false)
    (hb : ∀ c ∈ b, isBlank c = false) (hane : a ≠ []) (hbne : b ≠ []) :
    words (a ++ ' ' :: b) = [a, b] := by
  have hrun {x : List Char} (hx : x ≠ []) : x.reverse.isEmpty = false := by simpa using hx
  have hlast : wordsAux [] b = [b] := by
    have := wordsAux_append hb [] []
    rw [List.append_nil, List.append_nil] at this
    rw [this, wordsAux, hrun hbne, List.reverse_reverse]
    rfl
  unfold words
  rw [wordsAux_append ha, List.append_nil, wordsAux, if_pos isBlank_space, hrun hane, hlast,
    List.reverse_reverse]
  rfl

/-! ## Collapsed blanks -/

/-- A text with a single space for every run of blanks, and none at the end. -/
def collapse : List Char → List Char
  | [] => []
  | c :: cs =>
    if isBlank c then
      if cs.head?.all isBlank then collapse cs else ' ' :: collapse cs
    else c :: collapse cs

theorem collapse_cons {c : Char} (h : isBlank c = false) (cs : List Char) :
    collapse (c :: cs) = c :: collapse cs := by
  rw [collapse, h]
  rfl

/-- A blank before a text is one space, unless the text is blank. -/
theorem collapse_blank_cons {c : Char} (h : isBlank c = true) (cs : List Char) :
    collapse (c :: cs) =
      if trimStart cs = [] then [] else ' ' :: collapse (trimStart cs) := by
  induction cs generalizing c with
  | nil => rw [collapse, h]; rfl
  | cons d cs ih =>
    rw [collapse, h, if_pos rfl]
    by_cases hd : isBlank d = true
    · have htrim : trimStart (d :: cs) = trimStart cs := List.dropWhile_cons_of_pos hd
      rw [htrim, ← ih hd, if_pos (by simp [hd])]
    · have htrim : trimStart (d :: cs) = d :: cs := List.dropWhile_cons_of_neg hd
      rw [htrim, if_neg (by simp [hd]), if_neg (List.cons_ne_nil d cs)]

theorem not_isBlank_of_trimStart_eq {c : Char} {cs rest : List Char} (h : trimStart cs = c :: rest) :
    isBlank c = false := by
  have := List.head?_dropWhile_not isBlank cs
  unfold trimStart at h
  simpa [h] using this

theorem wordsAux_trimStart (cs : List Char) :
    wordsAux [] cs = wordsAux [] (trimStart cs) := by
  induction cs with
  | nil => rfl
  | cons c cs ih =>
    by_cases hc : isBlank c = true
    · have htrim : trimStart (c :: cs) = trimStart cs := List.dropWhile_cons_of_pos hc
      rw [htrim, ← ih, wordsAux, if_pos hc]
      rfl
    · have htrim : trimStart (c :: cs) = c :: cs := List.dropWhile_cons_of_neg hc
      rw [htrim]

theorem wordsAux_ne_nil (run : List Char) (c : Char) (cs : List Char) :
    wordsAux (c :: run) cs ≠ [] := by
  induction cs generalizing c run with
  | nil => simp [wordsAux]
  | cons d cs ih =>
    unfold wordsAux
    split
    · simp
    · exact ih (c :: run) d

theorem intercalate_wordsAux (run cs : List Char) :
    [' '].intercalate (wordsAux run cs) =
      if run.isEmpty then collapse (trimStart cs) else run.reverse ++ collapse cs := by
  induction cs generalizing run with
  | nil =>
    cases run with
    | nil => rfl
    | cons c run => simp [wordsAux, List.intercalate, collapse]
  | cons c cs ih =>
    unfold wordsAux
    by_cases hc : isBlank c = true
    · rw [if_pos hc]
      have htrim : trimStart (c :: cs) = trimStart cs := List.dropWhile_cons_of_pos hc
      cases run with
      | nil =>
        rw [htrim]
        exact ih []
      | cons d run =>
        have hlater : [' '].intercalate (wordsAux [] cs) = collapse (trimStart cs) := ih []
        show [' '].intercalate ((d :: run).reverse :: wordsAux [] cs) =
          (d :: run).reverse ++ collapse (c :: cs)
        rw [collapse_blank_cons hc, ← hlater, wordsAux_trimStart]
        cases hstart : trimStart cs with
        | nil => simp [wordsAux, List.intercalate]
        | cons e es =>
          have he : isBlank e = false := not_isBlank_of_trimStart_eq hstart
          obtain ⟨w, ws, hws⟩ := List.exists_cons_of_ne_nil (wordsAux_ne_nil [] e es)
          rw [if_neg (List.cons_ne_nil e es), wordsAux, he]
          simp [hws, List.intercalate]
    · rw [if_neg hc, ih (c :: run)]
      have hc : isBlank c = false := by simpa using hc
      have htrim : trimStart (c :: cs) = c :: cs := List.dropWhile_cons_of_neg (by simp [hc])
      rw [htrim, collapse_cons hc]
      cases run <;> simp

/-- The words of a text with spaces between them. -/
theorem intercalate_words (t : List Char) :
    [' '].intercalate (words t) = collapse (trimStart t) :=
  intercalate_wordsAux [] t

/-! ## What is not blank -/

/-- The characters of a text that are not blank. -/
def ink (cs : List Char) : List Char :=
  cs.filter (!isBlank ·)

theorem ink_append (a b : List Char) : ink (a ++ b) = ink a ++ ink b :=
  List.filter_append a b

theorem ink_cons {c : Char} (h : isBlank c = false) (cs : List Char) : ink (c :: cs) = c :: ink cs :=
  List.filter_cons_of_pos (by simp [h])

theorem ink_blank_cons {c : Char} (h : isBlank c = true) (cs : List Char) : ink (c :: cs) = ink cs :=
  List.filter_cons_of_neg (by simp [h])

theorem ink_ink (cs : List Char) : ink (ink cs) = ink cs := by
  simp [ink]

theorem ink_of_allBlank {b : List Char} (h : allBlank b = true) : ink b = [] :=
  List.filter_eq_nil_iff.2 fun c hc => by simp [List.all_eq_true.1 h c hc]

theorem ink_trimStart (cs : List Char) : ink (trimStart cs) = ink cs := by
  obtain ⟨head, heq, hhead⟩ := exists_trimStart cs
  conv => rhs; rw [heq]
  rw [ink_append, ink_of_allBlank hhead, List.nil_append]

theorem ink_trimEnd (cs : List Char) : ink (trimEnd cs) = ink cs := by
  obtain ⟨tail, heq, htail⟩ := exists_trimEnd cs
  conv => rhs; rw [heq]
  rw [ink_append, ink_of_allBlank htail, List.append_nil]

theorem ink_trim (cs : List Char) : ink (trim cs) = ink cs :=
  (ink_trimEnd _).trans (ink_trimStart cs)

theorem flatten_wordsAux {run : List Char} (hrun : ∀ c ∈ run, isBlank c = false) (cs : List Char) :
    (wordsAux run cs).flatten = run.reverse ++ ink cs := by
  induction cs generalizing run with
  | nil => cases run <;> simp [wordsAux, ink]
  | cons c cs ih =>
    rw [wordsAux]
    by_cases hc : isBlank c = true
    · have hlater : (wordsAux [] cs).flatten = ink cs := ih fun _ hc => absurd hc List.not_mem_nil
      rw [if_pos hc, ink_blank_cons hc]
      cases run with
      | nil => exact hlater
      | cons d run => exact congrArg ((d :: run).reverse ++ ·) hlater
    · have hc' : isBlank c = false := by simpa using hc
      rw [if_neg hc, ink_cons hc', ih fun d hd => ?_, List.reverse_cons, List.append_assoc]
      · rfl
      · rcases List.mem_cons.1 hd with rfl | hd
        · exact hc'
        · exact hrun d hd

/-- The words of a text are its characters that are not blank. -/
theorem flatten_words (cs : List Char) : (words cs).flatten = ink cs :=
  flatten_wordsAux (fun _ hc => absurd hc List.not_mem_nil) cs

end RpcBindings.Text
