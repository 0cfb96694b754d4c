import RpcBindings.Proofs.Masked.InCode

/-!
Tokens of a Go text, and texts that are laid out on one line.

A text is read as its literals, its commas, and the runs of code between blanks, commas, literals and
comments; comments are not read at all. Go splits every run into tokens on its own and no token of Go
holds a comma and more, so texts that are read alike have the same tokens. Main statements: a text
that settles is read apart from what follows its comma (`tokens_append_comma`), blanks around a text do
not count (`tokens_trim`), and a text without line comments reads alike when its blanks are collapsed
outside of literals (`tokens_words`).
-/

namespace RpcBindings

/-- What a Go text is read as, one after the other. -/
inductive GoToken where
  | literal (text : List Char)
  | comma
  /-- A run of code that holds neither blanks nor commas. -/
  | code (text : List Char)
  deriving DecidableEq, Repr

namespace Masked

/-- The scan stands in a literal. -/
def inLiteral : ScanMode → Bool
  | .quoted .. | .escaped _ | .character _ => true
  | _ => false

/-- The run of code that ends at a position, read last character first. -/
def endRun (run : List Char) : List GoToken :=
  if run.isEmpty then [] else [.code run.reverse]

/-- The tokens that end with a character between two modes, and the run or the literal that is being
read behind it, last character first. -/
def tokenStep (mode next : ScanMode) (run : List Char) (c : Char) : List GoToken × List Char :=
  if inLiteral mode then
    if inLiteral next then ([], c :: run) else ([.literal (c :: run).reverse], [])
  else if inComment mode then ([], [])
  else if inLiteral next then (endRun run, [c])
  else if inComment next || Text.isBlank c then (endRun run, [])
  else if c = ',' then (endRun run ++ [.comma], [])
  else ([], c :: run)

/-- The tokens of a text that is read from a mode on. -/
def tokensFrom : ScanMode → List Char → List Char → List GoToken
  | mode, run, [] => if inLiteral mode then [.literal run.reverse] else endRun run
  | mode, run, c :: cs =>
    let next := (step .go mode c cs).2
    let read := tokenStep mode next run c
    read.1 ++ tokensFrom next read.2 cs

/-- The tokens of a Go text. -/
def tokens (t : List Char) : List GoToken :=
  tokensFrom (.code .fresh) [] t

theorem tokensFrom_cons {mode next : ScanMode} {c : Char} {cs : List Char}
    (h : (step .go mode c cs).2 = next) (run : List Char) :
    tokensFrom mode run (c :: cs) =
      (tokenStep mode next run c).1 ++ tokensFrom next (tokenStep mode next run c).2 cs := by
  rw [← h]
  rfl

/-! ## One character -/

theorem tokensFrom_code_word (v w : WordState) (run cs : List Char) :
    tokensFrom (.code v) run cs = tokensFrom (.code w) run cs := by
  induction cs generalizing v w run with
  | nil => rfl
  | cons c cs ih =>
    obtain ⟨-, heq | ⟨v', w', hv, hw⟩⟩ := codeStep_go v w c cs
    · have heq : (step .go (.code v) c cs).2 = (step .go (.code w) c cs).2 := heq
      rw [tokensFrom_cons heq]
      rfl
    · have hv : (step .go (.code v) c cs).2 = .code v' := hv
      have hw : (step .go (.code w) c cs).2 = .code w' := hw
      have hread : tokenStep (.code v) (.code v') run c = tokenStep (.code w) (.code w') run c := rfl
      rw [tokensFrom_cons hv, tokensFrom_cons hw, hread, ih v' w']

theorem step_code_of_isBareChar {c : Char} (h : isBareChar c = true) (w : WordState) (cs : List Char) :
    step .go (.code w) c cs = (.shown, .code (w.next c)) := by
  unfold isBareChar at h
  simp only [Bool.and_eq_true, bne_iff_ne] at h
  obtain ⟨⟨⟨hquote, hback⟩, hsingle⟩, hslash⟩ := h
  refine codeStep_of_beginsNothing ?_ w
  simp [beginsNothing, hslash, hquote, hback, hsingle]

theorem isBareChar_of_isBlank {c : Char} (h : Text.isBlank c = true) : isBareChar c = true := by
  unfold isBareChar
  simp only [Bool.and_eq_true, bne_iff_ne]
  refine ⟨⟨⟨?_, ?_⟩, ?_⟩, ?_⟩ <;> rintro rfl <;> exact absurd h (by decide)

theorem tokensFrom_code_blank {c : Char} (h : Text.isBlank c = true) (w : WordState)
    (run cs : List Char) :
    tokensFrom (.code w) run (c :: cs) = endRun run ++ tokensFrom (.code .fresh) [] cs := by
  have hstep := step_code_of_isBareChar (isBareChar_of_isBlank h) w cs
  have hread : tokenStep (.code w) (.code (w.next c)) run c = (endRun run, []) := by
    simp [tokenStep, inLiteral, inComment, h]
  rw [tokensFrom_cons (congrArg Prod.snd hstep), hread, tokensFrom_code_word _ .fresh]

theorem tokensFrom_code_comma (w : WordState) (run cs : List Char) :
    tokensFrom (.code w) run (',' :: cs) =
      endRun run ++ .comma :: tokensFrom (.code .fresh) [] cs := by
  have hstep := step_code_of_isBareChar (c := ',') (by decide) w cs
  have hblank : Text.isBlank ',' = false := by decide
  have hread : tokenStep (.code w) (.code (w.next ',')) run ',' = (endRun run ++ [.comma], []) := by
    simp [tokenStep, inLiteral, inComment, hblank]
  rw [tokensFrom_cons (congrArg Prod.snd hstep), hread, tokensFrom_code_word _ .fresh,
    List.append_assoc]
  rfl

/-! ## Texts one after the other -/

/-- Behind a text that settles a comma is read, and what follows it on its own. -/
theorem tokensFrom_append_comma {mode : ScanMode} {run t rest : List Char} (hgo : ofGo mode = true)
    (h : settlesFrom mode t = true) :
    tokensFrom mode run (t ++ ',' :: rest) = tokensFrom mode run t ++ .comma :: tokens rest := by
  induction t generalizing mode run with
  | nil =>
    cases mode with
    | code w => exact tokensFrom_code_comma w run rest
    | _ => exact absurd h Bool.false_ne_true
  | cons c t ih =>
    have hstep : step .go mode c (t ++ ',' :: rest) = step .go mode c t :=
      step_append hgo h fun _ _ => detached_cons (by decide) (by decide) rest
    rw [List.cons_append, tokensFrom_cons (congrArg Prod.snd hstep),
      ih (ofGo_step hgo c t) (settlesFrom_step h), ← List.append_assoc]
    rfl

theorem tokens_append_comma {t : List Char} (h : settles t = true) (rest : List Char) :
    tokens (t ++ ',' :: rest) = tokens t ++ .comma :: tokens rest :=
  tokensFrom_append_comma rfl h

theorem tokensFrom_allBlank {t : List Char} (h : Text.allBlank t = true) (w : WordState)
    (run : List Char) : tokensFrom (.code w) run t = endRun run := by
  induction t generalizing w run with
  | nil => rfl
  | cons c t ih =>
    rw [Text.allBlank, List.all_cons, Bool.and_eq_true] at h
    rw [tokensFrom_code_blank h.1, ih h.2]
    exact List.append_nil _

theorem detached_of_allBlank {b : List Char} (h : Text.allBlank b = true) : Detached b := by
  cases b with
  | nil => exact ⟨by simp, by simp⟩
  | cons d b =>
    rw [Text.allBlank, List.all_cons, Bool.and_eq_true] at h
    refine detached_cons ?_ ?_ b <;> rintro rfl <;> exact absurd h.1 (by decide)

/-- Blanks behind a text that settles are not read. -/
theorem tokensFrom_append_blank {mode : ScanMode} {run t b : List Char} (hgo : ofGo mode = true)
    (h : settlesFrom mode t = true) (hb : Text.allBlank b = true) :
    tokensFrom mode run (t ++ b) = tokensFrom mode run t := by
  induction t generalizing mode run with
  | nil =>
    cases mode with
    | code w => exact tokensFrom_allBlank hb w run
    | _ => exact absurd h Bool.false_ne_true
  | cons c t ih =>
    have hstep : step .go mode c (t ++ b) = step .go mode c t :=
      step_append hgo h fun _ _ => detached_of_allBlank hb
    rw [List.cons_append, tokensFrom_cons (congrArg Prod.snd hstep),
      ih (ofGo_step hgo c t) (settlesFrom_step h)]
    rfl

/-- Blanks before a text are not read. -/
theorem tokens_blank_append {b : List Char} (hb : Text.allBlank b = true) (t : List Char) :
    tokens (b ++ t) = tokens t := by
  induction b with
  | nil => rfl
  | cons c b ih =>
    rw [Text.allBlank, List.all_cons, Bool.and_eq_true] at hb
    have := tokensFrom_code_blank hb.1 .fresh [] (b ++ t)
    rw [List.cons_append]
    exact this.trans (ih hb.2)

/-! ## Trimmed texts -/

/-- A scan that begins in a mode enters no line comment in the text. -/
def lineCommentFreeFrom : ScanMode → List Char → Bool
  | _, [] => true
  | mode, c :: cs =>
    (step .go mode c cs).2 != .lineComment && lineCommentFreeFrom (step .go mode c cs).2 cs

/-- No line comment begins in the text. -/
def lineCommentFree (t : List Char) : Bool :=
  lineCommentFreeFrom (.code .fresh) t

theorem lineCommentFreeFrom_cons {mode : ScanMode} {c : Char} {cs : List Char}
    (h : lineCommentFreeFrom mode (c :: cs) = true) :
    (step .go mode c cs).2 ≠ .lineComment ∧
      lineCommentFreeFrom (step .go mode c cs).2 cs = true := by
  rw [lineCommentFreeFrom, Bool.and_eq_true, bne_iff_ne] at h
  exact h

/-- Blanks end neither a block comment nor a literal. -/
theorem eq_code_of_settlesFrom_blank {mode : ScanMode} {b : List Char} (hgo : ofGo mode = true)
    (hb : Text.allBlank b = true) (hline : mode ≠ .lineComment) (h : settlesFrom mode b = true) :
    ∃ w, mode = .code w := by
  induction b generalizing mode with
  | nil =>
    cases mode with
    | code w => exact ⟨w, rfl⟩
    | _ => exact absurd h Bool.false_ne_true
  | cons c b ih =>
    rw [Text.allBlank, List.all_cons, Bool.and_eq_true] at hb
    have hbare := isBareChar_of_isBlank hb.1
    unfold isBareChar at hbare
    simp only [Bool.and_eq_true, bne_iff_ne] at hbare
    obtain ⟨⟨⟨hquote, hback⟩, hsingle⟩, hslash⟩ := hbare
    have hmeets := meets_of_settlesFrom h
    have hlater := settlesFrom_step h
    -- in every other mode the blank leads to a mode that is not code either
    have hno (next : ScanMode) (hstep : (step .go mode c b).2 = next) (hnext : next ≠ .lineComment)
        (hcode : ∀ w, next ≠ .code w) : ∃ w, mode = .code w := by
      rw [hstep] at hlater
      obtain ⟨w, hw⟩ := ih (hstep ▸ ofGo_step hgo c b) hb.2 hnext hlater
      exact absurd hw (hcode w)
    cases mode with
    | code w => exact ⟨w, rfl⟩
    | lineComment => exact absurd rfl hline
    | blockOpen =>
      obtain rfl : c = '*' := by simpa [meets] using hmeets
      exact absurd hb.1 (by decide)
    | blockComment =>
      have hc : c ≠ '*' := by
        rintro rfl
        exact absurd hb.1 (by decide)
      exact hno .blockComment (by simp [step, hc]) (by simp) (by simp)
    | blockClose =>
      obtain rfl : c = '/' := by simpa [meets] using hmeets
      exact absurd rfl hslash
    | quoted q escapes =>
      have hq : c ≠ q := by
        rintro rfl
        simp only [ofGo, Bool.or_eq_true, beq_iff_eq] at hgo
        exact hgo.elim hquote hback
      have hescape : c ≠ '\\' := by
        rintro rfl
        exact absurd hb.1 (by decide)
      exact hno (.quoted q escapes) (by simp [step, hq, hescape, literalStep]) (by simp)
        (by simp)
    | escaped q => exact hno (.quoted q true) rfl (by simp) (by simp)
    | rawOpen left hashes => exact absurd hgo Bool.false_ne_true
    | raw hashes => exact absurd hgo Bool.false_ne_true
    | rawClose left => exact absurd hgo Bool.false_ne_true
    | character ahead =>
      cases ahead with
      | zero => exact hno (.character 0) (by simp [step, hsingle]) (by simp) (by simp)
      | succ n => exact hno (.character n) rfl (by simp) (by simp)

theorem settlesFrom_scanTo {mode : ScanMode} {t rest : List Char}
    (h : settlesFrom mode (t ++ rest) = true) : settlesFrom (scanTo mode t rest) rest = true := by
  induction t generalizing mode with
  | nil => exact h
  | cons c t ih => exact ih (settlesFrom_step h)

theorem scanTo_ne_lineComment {mode : ScanMode} {t rest : List Char} (hline : mode ≠ .lineComment)
    (h : lineCommentFreeFrom mode (t ++ rest) = true) : scanTo mode t rest ≠ .lineComment := by
  induction t generalizing mode with
  | nil => exact hline
  | cons c t ih => exact ih (lineCommentFreeFrom_cons h).1 (lineCommentFreeFrom_cons h).2

theorem lineCommentFreeFrom_of_scanTo {mode : ScanMode} {t rest : List Char} {w : WordState}
    (hgo : ofGo mode = true) (h : lineCommentFreeFrom mode (t ++ rest) = true)
    (hmode : scanTo mode t rest = .code w) : lineCommentFreeFrom mode t = true := by
  induction t generalizing mode with
  | nil => rfl
  | cons c t ih =>
    have hstep := step_eq_of_scanTo hgo hmode
    obtain ⟨hline, hlater⟩ := lineCommentFreeFrom_cons h
    rw [lineCommentFreeFrom, ← hstep, Bool.and_eq_true, bne_iff_ne]
    exact ⟨hline, ih (ofGo_step hgo c _) hlater hmode⟩

/-- A text without line comments settles without the blanks behind it. -/
theorem settles_of_append_blank {t b : List Char} (hb : Text.allBlank b = true)
    (hfree : lineCommentFree (t ++ b) = true) (h : settles (t ++ b) = true) :
    settles t = true ∧ lineCommentFree t = true := by
  have hmode : ∃ w, scanTo (.code .fresh) t b = .code w :=
    eq_code_of_settlesFrom_blank (ofGo_scanTo rfl t b) hb (scanTo_ne_lineComment (by simp) hfree)
      (settlesFrom_scanTo h)
  obtain ⟨w, hw⟩ := hmode
  exact ⟨settlesFrom_of_scanTo rfl h hw, lineCommentFreeFrom_of_scanTo rfl hfree hw⟩

theorem settlesFrom_code_word (v w : WordState) (t : List Char) :
    settlesFrom (.code v) t = settlesFrom (.code w) t := by
  induction t generalizing v w with
  | nil => rfl
  | cons c t ih =>
    have hmeets : meets (.code v) c t = meets (.code w) c t := rfl
    rw [settlesFrom_cons, settlesFrom_cons, hmeets]
    show (_ && settlesFrom (codeStep .go v c t).2 t) = (_ && settlesFrom (codeStep .go w c t).2 t)
    obtain ⟨-, heq | ⟨v', w', hv, hw⟩⟩ := codeStep_go v w c t
    · rw [heq]
    · rw [hv, hw, ih v' w']

theorem lineCommentFreeFrom_code_word (v w : WordState) (t : List Char) :
    lineCommentFreeFrom (.code v) t = lineCommentFreeFrom (.code w) t := by
  induction t generalizing v w with
  | nil => rfl
  | cons c t ih =>
    show ((codeStep .go v c t).2 != _ && lineCommentFreeFrom (codeStep .go v c t).2 t) =
      ((codeStep .go w c t).2 != _ && lineCommentFreeFrom (codeStep .go w c t).2 t)
    obtain ⟨-, heq | ⟨v', w', hv, hw⟩⟩ := codeStep_go v w c t
    · rw [heq]
    · rw [hv, hw, ih v' w']
      rfl

/-- Blanks before a text do not matter for whether it settles and for its comments. -/
theorem settles_blank_append {b t : List Char} (hb : Text.allBlank b = true) :
    settles (b ++ t) = settles t ∧ lineCommentFree (b ++ t) = lineCommentFree t := by
  induction b with
  | nil => exact ⟨rfl, rfl⟩
  | cons c b ih =>
    rw [Text.allBlank, List.all_cons, Bool.and_eq_true] at hb
    obtain ⟨hsettles, hfree⟩ := ih hb.2
    have hbare := isBareChar_of_isBlank hb.1
    have hstep := step_code_of_isBareChar hbare .fresh (b ++ t)
    have hsingle : c ≠ '\'' := by
      rintro rfl
      exact absurd hbare (by decide)
    have hmeets : meets (.code .fresh) c (b ++ t) = true := by simp [meets, hsingle]
    constructor
    · unfold settles
      rw [List.cons_append, settlesFrom_cons, hstep, hmeets, Bool.true_and,
        settlesFrom_code_word _ .fresh]
      exact hsettles
    · unfold lineCommentFree
      rw [List.cons_append, lineCommentFreeFrom, hstep, lineCommentFreeFrom_code_word _ .fresh]
      exact hfree

/-- A text without line comments is read alike without the blanks around it, settles so, and has no
line comments so. -/
theorem tokens_trim {t : List Char} (hfree : lineCommentFree t = true) (h : settles t = true) :
    tokens (Text.trim t) = tokens t ∧ settles (Text.trim t) = true ∧
      lineCommentFree (Text.trim t) = true := by
  obtain ⟨head, ht, hhead⟩ := Text.exists_trimStart t
  obtain ⟨tail, hstart, htail⟩ := Text.exists_trimEnd (Text.trimStart t)
  have htrimmed : settles (Text.trim t) = true ∧ lineCommentFree (Text.trim t) = true := by
    rw [ht, (settles_blank_append hhead).2, hstart] at hfree
    rw [ht, (settles_blank_append hhead).1, hstart] at h
    exact settles_of_append_blank htail hfree h
  refine ⟨?_, htrimmed⟩
  calc tokens (Text.trim t) = tokens (Text.trim t ++ tail) :=
        (tokensFrom_append_blank rfl htrimmed.1 htail).symm
    _ = tokens (Text.trimStart t) := congrArg tokens hstart.symm
    _ = tokens (head ++ Text.trimStart t) := (tokens_blank_append hhead _).symm
    _ = tokens t := congrArg tokens ht.symm

/-! ## Collapsed blanks -/

/-- Inside of literals all blanks are single spaces. -/
def spacedFrom : ScanMode → List Char → Bool
  | _, [] => true
  | mode, c :: cs =>
    (!(inLiteral mode && Text.isBlank c) || c == ' ' && cs.head?.any (!Text.isBlank ·)) &&
      spacedFrom (step .go mode c cs).2 cs

/-- Inside of its literals the text has no other blanks than single spaces. -/
def spaced (t : List Char) : Bool :=
  spacedFrom (.code .fresh) t

theorem spacedFrom_cons {mode : ScanMode} {c : Char} {cs : List Char}
    (h : spacedFrom mode (c :: cs) = true) :
    (inLiteral mode = true → Text.isBlank c = true →
      c = ' ' ∧ ∃ d rest, cs = d :: rest ∧ Text.isBlank d = false) ∧
      spacedFrom (step .go mode c cs).2 cs = true := by
  rw [spacedFrom, Bool.and_eq_true] at h
  refine ⟨fun hliteral hblank => ?_, h.2⟩
  have hspace := h.1
  rw [hliteral, hblank] at hspace
  cases cs with
  | nil => exact absurd hspace (by simp)
  | cons d rest =>
    simp only [Bool.and_self, Bool.not_true, Bool.false_or, Bool.and_eq_true, beq_iff_eq,
      List.head?_cons, Option.any_some, Bool.not_eq_true'] at hspace
    exact ⟨hspace.1, d, rest, rfl, hspace.2⟩

/-- A character that is no blank begins a collapsed text when it begins the text. -/
theorem head?_collapse {d : Char} (hd : Text.isBlank d = false) (cs : List Char) :
    (Text.collapse cs).head? = some d ↔ cs.head? = some d := by
  have hspace : ' ' ≠ d := by
    rintro rfl
    exact absurd hd (by decide)
  cases cs with
  | nil => exact Iff.rfl
  | cons c cs =>
    by_cases hc : Text.isBlank c = true
    · have hne : c ≠ d := by
        rintro rfl
        exact absurd hc (by simp [hd])
      rw [Text.collapse_blank_cons hc]
      split <;> simp [hspace, hne]
    · rw [Text.collapse_cons (by simpa using hc)]
      exact Iff.rfl

/-- A collapsed text keeps all characters but blanks. -/
theorem mem_collapse {d : Char} (hd : Text.isBlank d = false) (cs : List Char) :
    d ∈ Text.collapse cs ↔ d ∈ cs := by
  have hspace : d ≠ ' ' := by
    rintro rfl
    exact absurd hd (by decide)
  induction cs with
  | nil => exact Iff.rfl
  | cons c cs ih =>
    rw [Text.collapse]
    split
    · rename_i hc
      have hne : d ≠ c := by
        rintro rfl
        exact absurd hc (by simp [hd])
      split <;> simp [ih, hspace, hne]
    · simp [ih]

/-- The blanks of a collapsed text are spaces. -/
theorem not_mem_collapse {d : Char} (hd : Text.isBlank d = true) (hspace : d ≠ ' ')
    (cs : List Char) : d ∉ Text.collapse cs := by
  induction cs with
  | nil => exact List.not_mem_nil
  | cons c cs ih =>
    rw [Text.collapse]
    split
    · split
      · exact ih
      · simp [hspace, ih]
    · rename_i hc
      rw [List.mem_cons, not_or]
      refine ⟨?_, ih⟩
      rintro rfl
      exact hc hd

theorem takeWhile_ne_of_not_mem {cs : List Char} (h : '\n' ∉ cs) :
    cs.takeWhile (· != '\n') = cs := by
  have hall : ∀ c ∈ cs, (c != '\n') = true := fun c hc => by
    rw [bne_iff_ne]
    rintro rfl
    exact h hc
  have : (cs ++ []).takeWhile (· != '\n') = cs ++ [].takeWhile (· != '\n') :=
    List.takeWhile_append_of_pos hall
  rwa [List.append_nil, List.takeWhile_nil, List.append_nil] at this

/-- A literal is read the same in a collapsed text. -/
theorem bodyOnLine?_collapse {cs : List Char} {n : Nat} (h : bodyOnLine? cs = some n)
    (hspaced : spacedFrom (.character n) cs = true) :
    bodyOnLine? (Text.collapse cs) = some n := by
  have hline : (Text.collapse cs).takeWhile (· != '\n') = Text.collapse cs :=
    takeWhile_ne_of_not_mem (not_mem_collapse (by decide) (by decide) cs)
  unfold bodyOnLine? at h ⊢
  rw [hline]
  -- the characters that the scan looks at stay where they are
  have hkeep {m : Nat} {c : Char} {rest : List Char}
      (hspaced : spacedFrom (.character m) (c :: rest) = true) :
      Text.collapse (c :: rest) = c :: Text.collapse rest := by
    by_cases hc : Text.isBlank c = true
    · obtain ⟨rfl, d, more, rfl, hd⟩ := (spacedFrom_cons hspaced).1 rfl hc
      have htrim : Text.trimStart (d :: more) = d :: more :=
        List.dropWhile_cons_of_neg (by simp [hd])
      rw [Text.collapse_blank_cons hc, htrim, if_neg (List.cons_ne_nil d more)]
    · exact Text.collapse_cons (by simpa using hc) rest
  match cs with
  | [] => exact absurd h (by simp [characterBody?])
  | [c] =>
    refine absurd h ?_
    by_cases hc : c = '\n'
    · simp [hc, characterBody?]
    · by_cases hslash : c = '\\' <;> simp [hc, hslash, characterBody?]
  | c :: d :: rest =>
    have hc : (c != '\n') = true := by
      refine Decidable.byContradiction fun hc => ?_
      rw [List.takeWhile_cons, if_neg hc] at h
      exact absurd h (by simp [characterBody?])
    have hd : (d != '\n') = true := by
      refine Decidable.byContradiction fun hd => ?_
      rw [List.takeWhile_cons, if_pos hc, List.takeWhile_cons, if_neg hd] at h
      by_cases hslash : c = '\\' <;> simp [hslash, characterBody?] at h
    rw [List.takeWhile_cons, if_pos hc, List.takeWhile_cons, if_pos hd] at h
    have hcollapse := hkeep hspaced
    by_cases hslash : c = '\\'
    · subst hslash
      obtain ⟨hif, hn⟩ := Option.ite_none_right_eq_some.1 h
      obtain rfl := Option.some.inj hn
      rw [Bool.and_eq_true, List.contains_iff_mem] at hif
      have hquote : '\'' ∈ Text.collapse rest :=
        (mem_collapse (by decide) rest).2 ((List.takeWhile_prefix _).subset hif.2)
      have hlater : spacedFrom (.character 1) (d :: rest) = true := (spacedFrom_cons hspaced).2
      rw [hcollapse, hkeep hlater, characterBody?, hif.1, List.contains_iff_mem.2 hquote]
      rfl
    · have hquote : d = '\'' := by
        refine Decidable.byContradiction fun hquote => ?_
        simp [characterBody?, hslash, hquote] at h
      subst hquote
      have hone (e : List Char) : characterBody? (c :: '\'' :: e) = some 1 := by
        simp [characterBody?]
      rw [hone] at h
      rw [hcollapse, Text.collapse_cons (by decide), hone, h]

/-- A character is met and read in a collapsed text as in the text. -/
theorem step_collapse {mode : ScanMode} {c : Char} {cs : List Char} (hgo : ofGo mode = true)
    (h : settlesFrom mode (c :: cs) = true) (hspaced : spacedFrom mode (c :: cs) = true) :
    (step .go mode c (Text.collapse cs)).2 = (step .go mode c cs).2 ∧
      meets mode c (Text.collapse cs) = true := by
  have hmeets := meets_of_settlesFrom h
  cases mode with
  | code w =>
    have hslash : (codeStep .go w '/' (Text.collapse cs)).2 = (codeStep .go w '/' cs).2 := by
      have hopens (cs : List Char) : (codeStep .go w '/' cs).2 =
          if cs.head? = some '/' then .lineComment
          else if cs.head? = some '*' then .blockOpen
          else .code (w.next '/') := by
        cases cs with
        | nil => rfl
        | cons d cs =>
          by_cases hs : d = '/'
          · subst hs; rfl
          · by_cases ht : d = '*'
            · subst ht; rfl
            · simp [codeStep, hs, ht]
      rw [hopens, hopens]
      simp only [head?_collapse (show Text.isBlank '/' = false by decide),
        head?_collapse (show Text.isBlank '*' = false by decide)]
    by_cases hsingle : c = '\''
    · subst hsingle
      obtain ⟨n, hn⟩ := exists_bodyOnLine? hmeets rfl
      have hbody := characterBody?_of_bodyOnLine? hn []
      rw [List.append_nil] at hbody
      have hstep : (step .go (.code w) '\'' cs).2 = .character n := by
        show (codeStep .go w '\'' cs).2 = _
        unfold codeStep
        simp only [hbody]
      have hlater := (spacedFrom_cons hspaced).2
      rw [hstep] at hlater
      have hn' := bodyOnLine?_collapse hn hlater
      have hbody' := characterBody?_of_bodyOnLine? hn' []
      rw [List.append_nil] at hbody'
      refine ⟨?_, by simp [meets, hn']⟩
      rw [hstep]
      show (codeStep .go w '\'' (Text.collapse cs)).2 = _
      unfold codeStep
      simp only [hbody']
    · refine ⟨?_, by simp [meets, hsingle]⟩
      by_cases hc : c = '/'
      · subst hc
        exact hslash
      · show (codeStep .go w c (Text.collapse cs)).2 = (codeStep .go w c cs).2
        unfold codeStep
        split
        · exact absurd rfl hc
        · rfl
        · rfl
        · rfl
        · exact absurd rfl hsingle
        · rfl
  | blockComment =>
    refine ⟨?_, rfl⟩
    unfold step
    simp only [head?_collapse (show Text.isBlank '/' = false by decide)]
  | quoted q escapes =>
    refine ⟨?_, rfl⟩
    unfold step
    simp only
    repeat' split
    all_goals rfl
  | character ahead =>
    rcases ahead with _ | _ | _ <;> exact ⟨rfl, hmeets⟩
  | lineComment => exact ⟨rfl, rfl⟩
  | blockOpen => exact ⟨rfl, hmeets⟩
  | blockClose => exact ⟨rfl, hmeets⟩
  | escaped q => exact ⟨rfl, rfl⟩
  | rawOpen left hashes => exact absurd hgo Bool.false_ne_true
  | raw hashes => exact absurd hgo Bool.false_ne_true
  | rawClose left => exact absurd hgo Bool.false_ne_true

theorem tokensFrom_code_of_head {cs : List Char} (h : cs.head?.all Text.isBlank = true)
    (w : WordState) (run : List Char) :
    tokensFrom (.code w) run cs = endRun run ++ tokensFrom (.code .fresh) [] cs := by
  cases cs with
  | nil => exact (List.append_nil _).symm
  | cons c cs =>
    have hc : Text.isBlank c = true := h
    rw [tokensFrom_code_blank hc, tokensFrom_code_blank hc]
    rfl

theorem tokenStep_of_inComment {mode next : ScanMode} {run : List Char} {c : Char}
    (h : inComment next = true) : (tokenStep mode next run c).2 = [] := by
  have hliteral : inLiteral next = false := by
    cases next <;> first | rfl | exact absurd h Bool.false_ne_true
  unfold tokenStep
  rw [hliteral, h]
  repeat' split
  all_goals first | rfl | contradiction

/-- A blank outside of literals is like any other one, and a run of blanks like one. -/
theorem tokensFrom_blank_collapse {mode : ScanMode} {run cs : List Char} {c c' : Char}
    (hgo : ofGo mode = true) (hline : mode ≠ .lineComment) (hliteral : inLiteral mode = false)
    (hrun : inComment mode = true → run = []) (hc : Text.isBlank c = true)
    (hc' : Text.isBlank c' = true) (hmeets : meets mode c cs = true)
    (hlater : ∀ run, (inComment (step .go mode c cs).2 = true → run = []) →
      tokensFrom (step .go mode c cs).2 run (Text.collapse cs) =
          tokensFrom (step .go mode c cs).2 run cs ∧
        settlesFrom (step .go mode c cs).2 (Text.collapse cs) = true) :
    (tokensFrom mode run (c' :: Text.collapse cs) = tokensFrom mode run (c :: cs) ∧
        settlesFrom mode (c' :: Text.collapse cs) = true) ∧
      (cs.head?.all Text.isBlank = true →
        tokensFrom mode run (Text.collapse cs) = tokensFrom mode run (c :: cs) ∧
          settlesFrom mode (Text.collapse cs) = true) := by
  have hne {d e : Char} (hd : Text.isBlank d = true) (he : Text.isBlank e = false) : d ≠ e := by
    rintro rfl
    exact Bool.noConfusion (hd.symm.trans he)
  cases mode with
  | code w =>
    have hstep {d : Char} (hd : Text.isBlank d = true) (cs : List Char) :
        (step .go (.code w) d cs).2 = .code (w.next d) :=
      congrArg Prod.snd (step_code_of_isBareChar (isBareChar_of_isBlank hd) w cs)
    rw [hstep hc] at hlater
    have hfresh (run : List Char) := hlater run fun h => absurd h Bool.false_ne_true
    simp only [tokensFrom_code_word _ .fresh, settlesFrom_code_word _ .fresh] at hfresh
    refine ⟨⟨?_, ?_⟩, fun hhead => ⟨?_, ?_⟩⟩
    · rw [tokensFrom_code_blank hc', tokensFrom_code_blank hc, (hfresh []).1]
    · have hsingle : c' ≠ '\'' := hne hc' (by decide)
      rw [settlesFrom_cons, hstep hc', settlesFrom_code_word _ .fresh, (hfresh []).2]
      simp [meets, hsingle]
    · rw [tokensFrom_code_word w .fresh, (hfresh run).1, tokensFrom_code_of_head hhead,
        tokensFrom_code_blank hc]
    · rw [settlesFrom_code_word w .fresh]
      exact (hfresh run).2
  | blockComment =>
    obtain rfl := hrun rfl
    have hstep {d : Char} (hd : Text.isBlank d = true) (cs : List Char) :
        (step .go .blockComment d cs).2 = .blockComment := by
      simp [step, hne hd (e := '*') (by decide)]
    rw [hstep hc] at hlater
    have hread (d : Char) : tokenStep .blockComment .blockComment [] d = ([], []) := rfl
    obtain ⟨htokens, hsettles⟩ := hlater [] fun _ => rfl
    have hskip {d : Char} (hd : Text.isBlank d = true) (cs : List Char) :
        tokensFrom .blockComment [] (d :: cs) = tokensFrom .blockComment [] cs := by
      rw [tokensFrom_cons (hstep hd cs), hread]
      rfl
    refine ⟨⟨?_, ?_⟩, fun _ => ⟨?_, hsettles⟩⟩
    · rw [hskip hc', hskip hc, htokens]
    · rw [settlesFrom_cons, hstep hc', hsettles]
      rfl
    · rw [hskip hc, htokens]
  | lineComment => exact absurd rfl hline
  | blockOpen => exact absurd (by simpa [meets] using hmeets) (hne hc (e := '*') (by decide))
  | blockClose => exact absurd (by simpa [meets] using hmeets) (hne hc (e := '/') (by decide))
  | quoted q escapes => exact absurd hliteral.symm Bool.false_ne_true
  | escaped q => exact absurd hliteral.symm Bool.false_ne_true
  | character ahead => exact absurd hliteral.symm Bool.false_ne_true
  | rawOpen left hashes => exact absurd hgo Bool.false_ne_true
  | raw hashes => exact absurd hgo Bool.false_ne_true
  | rawClose left => exact absurd hgo Bool.false_ne_true

/-- A text without line comments is read alike when its blanks are collapsed, and settles so, when
inside of its literals they are collapsed already. -/
theorem tokensFrom_collapse {mode : ScanMode} {run cs : List Char} (hgo : ofGo mode = true)
    (hline : mode ≠ .lineComment) (hrun : inComment mode = true → run = [])
    (h : settlesFrom mode cs = true) (hfree : lineCommentFreeFrom mode cs = true)
    (hspaced : spacedFrom mode cs = true) :
    tokensFrom mode run (Text.collapse cs) = tokensFrom mode run cs ∧
      settlesFrom mode (Text.collapse cs) = true := by
  induction cs generalizing mode run with
  | nil => exact ⟨rfl, h⟩
  | cons c cs ih =>
    obtain ⟨hstep, hmeets⟩ := step_collapse hgo h hspaced
    have hlater (run : List Char)
        (hrun : inComment (step .go mode c cs).2 = true → run = []) :=
      ih (ofGo_step hgo c cs) (lineCommentFreeFrom_cons hfree).1 hrun (settlesFrom_step h)
        (lineCommentFreeFrom_cons hfree).2 (spacedFrom_cons hspaced).2
    -- a character that stays is read as before
    have hkept : tokensFrom mode run (c :: Text.collapse cs) = tokensFrom mode run (c :: cs) ∧
        settlesFrom mode (c :: Text.collapse cs) = true := by
      obtain ⟨htokens, hsettles⟩ := hlater _ tokenStep_of_inComment
      constructor
      · rw [tokensFrom_cons hstep, htokens]
        rfl
      · rw [settlesFrom_cons, hmeets, Bool.true_and, hstep]
        exact hsettles
    by_cases hblank : Text.isBlank c = true
    · by_cases hliteral : inLiteral mode = true
      · obtain ⟨rfl, d, rest, rfl, hd⟩ := (spacedFrom_cons hspaced).1 hliteral hblank
        have hstays : Text.collapse (' ' :: d :: rest) = ' ' :: Text.collapse (d :: rest) := by
          rw [Text.collapse, if_pos hblank, if_neg (by simp [hd])]
        rw [hstays]
        exact hkept
      · obtain ⟨hspace, hdropped⟩ := tokensFrom_blank_collapse hgo hline (by simpa using hliteral)
          hrun hblank Text.isBlank_space (meets_of_settlesFrom h) hlater
        rw [Text.collapse, if_pos hblank]
        split
        · exact hdropped ‹_›
        · exact hspace
    · rw [Text.collapse_cons (by simpa using hblank)]
      exact hkept

/-- A text without blanks around it and without line comments is read alike with single spaces
between its words, and settles so, when inside of its literals no other blanks stand. -/
theorem tokens_words {t : List Char} (htrim : Text.trimStart t = t)
    (hfree : lineCommentFree t = true) (h : settles t = true) (hspaced : spaced t = true) :
    tokens ([' '].intercalate (Text.words t)) = tokens t ∧
      settles ([' '].intercalate (Text.words t)) = true := by
  rw [Text.intercalate_words, htrim]
  exact tokensFrom_collapse rfl (by simp) nofun h hfree hspaced

end Masked

end RpcBindings
