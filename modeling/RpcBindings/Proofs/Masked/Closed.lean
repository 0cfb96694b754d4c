import RpcBindings.Proofs.Masked.Boundary

/-!
Texts of Go that are masked the same wherever they stand.

A closed text leaves no comment and no literal open and does not look at what follows it, so a text
that is put together from closed ones is masked piece by piece (`mask_append`). Main statements: a
text is closed when its scan ends in code and meets no quote that stands alone
(`closed_of_settles`), and a text in which no comment and no literal begins is closed and shows whole
(`mask_of_isBare`).
-/

namespace RpcBindings.Masked

/-! ## Modes of Go -/

/-- What the scan does in code does not depend on the word before it. -/
theorem codeStep_go (w w' : WordState) (c : Char) (rest : List Char) :
    (codeStep .go w c rest).1 = (codeStep .go w' c rest).1 ∧
      ((codeStep .go w c rest).2 = (codeStep .go w' c rest).2 ∨
        ∃ v v', (codeStep .go w c rest).2 = .code v ∧ (codeStep .go w' c rest).2 = .code v') := by
  unfold codeStep
  extract_lets plain plain'
  have hplain : plain.1 = plain'.1 ∧ (plain.2 = plain'.2 ∨
      ∃ v v', plain.2 = .code v ∧ plain'.2 = .code v') :=
    ⟨rfl, .inr ⟨_, _, rfl, rfl⟩⟩
  split
  · split
    · exact ⟨rfl, .inl rfl⟩
    · exact ⟨rfl, .inl rfl⟩
    · exact hplain
  · rw [if_neg (by simp), if_neg (by simp)]
    exact hplain
  · exact ⟨rfl, .inl rfl⟩
  · exact ⟨rfl, .inl rfl⟩
  · split
    · exact ⟨rfl, .inl rfl⟩
    · exact hplain
  · exact hplain

theorem glyphsFrom_code (w : WordState) (cs : List Char) :
    glyphsFrom .go (.code w) cs = glyphs .go cs := by
  unfold glyphs
  generalize WordState.fresh = w'
  induction cs generalizing w w' with
  | nil => rfl
  | cons c cs ih =>
    rw [glyphsFrom, glyphsFrom]
    show (⟨c, (codeStep .go w c cs).1⟩ : Glyph) :: glyphsFrom .go (codeStep .go w c cs).2 cs =
      ⟨c, (codeStep .go w' c cs).1⟩ :: glyphsFrom .go (codeStep .go w' c cs).2 cs
    obtain ⟨hmark, hmode | ⟨v, v', hv, hv'⟩⟩ := codeStep_go w w' c cs
    · rw [hmark, hmode]
    · rw [hmark, hv, hv', ih v v']

/-! ## Closed texts -/

/-- The text does not make a comment of a slash before it. -/
def Detached (cs : List Char) : Prop :=
  cs.head? ≠ some '/' ∧ cs.head? ≠ some '*'

/-- Whatever follows the text, short of making a comment of its last slash, both are masked as on
their own. -/
def Closed (t : List Char) : Prop :=
  ∀ rest, (t.getLast? = some '/' → Detached rest) →
    glyphs .go (t ++ rest) = glyphs .go t ++ glyphs .go rest

theorem detached_cons {c : Char} (hslash : c ≠ '/') (hstar : c ≠ '*') (cs : List Char) :
    Detached (c :: cs) :=
  ⟨fun h => hslash (Option.some.inj h), fun h => hstar (Option.some.inj h)⟩

theorem closed_nil : Closed [] := fun _ _ => rfl

/-- Closed texts one after the other are closed. -/
theorem Closed.append {a b : List Char} (ha : Closed a) (hb : Closed b)
    (h : a.getLast? = some '/' → Detached b) : Closed (a ++ b) := by
  intro rest hrest
  cases b with
  | nil =>
    rw [List.append_nil] at hrest ⊢
    exact ha rest hrest
  | cons c b =>
    have hlast : (a ++ c :: b).getLast? = (c :: b).getLast? := by
      rw [List.getLast?_append_of_ne_nil _ (List.cons_ne_nil c b)]
    have hab : a.getLast? = some '/' → Detached (c :: b ++ rest) := h
    rw [List.append_assoc, ha _ hab, hb rest (hlast ▸ hrest), ha (c :: b) h, List.append_assoc]

/-- No character of a closed text is torn. -/
theorem Closed.whole {t : List Char} (h : Closed t) : Whole (glyphs .go t) := by
  have := h ['\n'] fun _ => detached_cons (by decide) (by decide) []
  exact whole_of_glyphsFrom_eq this

/-- What follows a closed text is masked on its own. -/
theorem mask_append {a b : List Char} (ha : Closed a) (h : a.getLast? = some '/' → Detached b) :
    mask .go (a ++ b) = mask .go a ++ mask .go b := by
  unfold mask
  rw [ha b h, showGlyphs_append]

theorem byteLength_mask {t : List Char} (h : Closed t) :
    Text.byteLength (mask .go t) = Text.byteLength t :=
  h.whole.unsplit.byteLength_mask

/-! ## Scans that settle -/

/-- A mode in which a scan of Go can stand. -/
def ofGo : ScanMode → Bool
  | .rawOpen .. | .raw _ | .rawClose _ => false
  | .quoted q _ | .escaped q => q == '"' || q == '`'
  | _ => true

/-- How many characters cannot close the literal that a quote before the text opens, when there is a
literal and it ends on its line. -/
def bodyOnLine? (cs : List Char) : Option Nat :=
  characterBody? (cs.takeWhile (· != '\n'))

/-- Whether a scan can meet a character before a text. In code no quote may stand alone; the other
modes say what they have been entered for. -/
def meets (mode : ScanMode) (c : Char) (cs : List Char) : Bool :=
  match mode with
  | .code _ => c != '\'' || (bodyOnLine? cs).isSome
  | .blockOpen => c == '*'
  | .blockClose => c == '/'
  | .character (_ + 2) => c == '\\'
  | .character _ => c != '\n'
  | _ => true

/-- The scan of a text ends in code and can meet all its characters. -/
def settlesFrom : ScanMode → List Char → Bool
  | .code _, [] => true
  | _, [] => false
  | mode, c :: cs => meets mode c cs && settlesFrom (step .go mode c cs).2 cs

/-- The text ends outside of comments and literals, and no quote stands alone in it. -/
def settles (t : List Char) : Bool :=
  settlesFrom (.code .fresh) t

theorem settlesFrom_cons (mode : ScanMode) (c : Char) (cs : List Char) :
    settlesFrom mode (c :: cs) = (meets mode c cs && settlesFrom (step .go mode c cs).2 cs) := by
  cases mode <;> rfl

theorem meets_of_settlesFrom {mode : ScanMode} {c : Char} {cs : List Char}
    (h : settlesFrom mode (c :: cs) = true) : meets mode c cs = true := by
  rw [settlesFrom_cons, Bool.and_eq_true] at h
  exact h.1

theorem settlesFrom_step {mode : ScanMode} {c : Char} {cs : List Char}
    (h : settlesFrom mode (c :: cs) = true) : settlesFrom (step .go mode c cs).2 cs = true := by
  rw [settlesFrom_cons, Bool.and_eq_true] at h
  exact h.2

/-- A quote that is met in code opens a literal on its line. -/
theorem exists_bodyOnLine? {w : WordState} {c : Char} {cs : List Char}
    (h : meets (.code w) c cs = true) (hc : c = '\'') : ∃ n, bodyOnLine? cs = some n := by
  rw [meets, hc, bne_self_eq_false, Bool.false_or] at h
  exact Option.isSome_iff_exists.1 h

/-- A character literal is read the same whatever follows it. -/
theorem characterBody?_append {a : List Char} {n : Nat} (h : characterBody? a = some n)
    (b : List Char) : characterBody? (a ++ b) = some n := by
  match a with
  | [] => exact absurd h (by simp [characterBody?])
  | [c] =>
    by_cases hc : c = '\\'
    · rw [hc] at h
      exact absurd h (by simp [characterBody?])
    · exact absurd h (by simp [characterBody?, hc])
  | c :: d :: cs =>
    by_cases hc : c = '\\'
    · subst hc
      obtain ⟨hif, hn⟩ := Option.ite_none_right_eq_some.1 h
      rw [Bool.and_eq_true] at hif
      rw [List.cons_append, List.cons_append, characterBody?, hif.1, List.contains_append, hif.2]
      exact hn
    · have hnext : d = '\'' := by
        refine Decidable.byContradiction fun hd => ?_
        simp [characterBody?, hc, hd] at h
      subst hnext
      have hone (e : List Char) : characterBody? (c :: '\'' :: e) = some 1 := by
        simp [characterBody?]
      rw [hone] at h
      rw [List.cons_append, List.cons_append, hone]
      exact h

/-- A literal that ends on its line is read as one whatever follows the line. -/
theorem characterBody?_of_bodyOnLine? {cs : List Char} {n : Nat} (h : bodyOnLine? cs = some n)
    (rest : List Char) : characterBody? (cs ++ rest) = some n := by
  have hsplit := List.takeWhile_append_dropWhile (p := (· != '\n')) (l := cs)
  rw [← hsplit, List.append_assoc]
  exact characterBody?_append h _

theorem ofGo_step {mode : ScanMode} (h : ofGo mode = true) (c : Char) (cs : List Char) :
    ofGo (step .go mode c cs).2 = true := by
  unfold step
  cases mode with
  | code w =>
    simp only
    unfold codeStep
    extract_lets plain
    repeat' split
    all_goals first | rfl | contradiction
  | quoted q escapes =>
    simp only
    repeat' split
    all_goals first | rfl | exact h
  | escaped q => exact h
  | lineComment => simp only; split <;> rfl
  | blockOpen => rfl
  | blockComment => simp only; split <;> rfl
  | blockClose => rfl
  | rawOpen left hashes => exact absurd h Bool.false_ne_true
  | raw hashes => exact absurd h Bool.false_ne_true
  | rawClose left => exact absurd h Bool.false_ne_true
  | character ahead =>
    cases ahead with
    | zero => simp only; split <;> rfl
    | succ n => rfl

/-- One character of a settling text is read the same whatever follows the text. -/
theorem step_append {mode : ScanMode} {c : Char} {cs rest : List Char} (hgo : ofGo mode = true)
    (h : settlesFrom mode (c :: cs) = true) (hrest : cs = [] → c = '/' → Detached rest) :
    step .go mode c (cs ++ rest) = step .go mode c cs := by
  cases cs with
  | cons d cs =>
    -- only the next character is looked at, except for character literals
    cases mode with
    | code w =>
      have hbody (hc : c = '\'') : characterBody? (d :: cs ++ rest) = characterBody? (d :: cs) := by
        obtain ⟨n, hn⟩ := exists_bodyOnLine? (meets_of_settlesFrom h) hc
        rw [characterBody?_of_bodyOnLine? hn rest, ← List.append_nil (d :: cs),
          characterBody?_of_bodyOnLine? hn []]
      show codeStep .go w c (d :: cs ++ rest) = codeStep .go w c (d :: cs)
      unfold codeStep
      split
      · simp only [List.cons_append]
        split <;> simp_all
      · rfl
      · rfl
      · rfl
      · rw [hbody rfl]
      · rfl
    | rawOpen left hashes => exact absurd hgo Bool.false_ne_true
    | raw hashes => exact absurd hgo Bool.false_ne_true
    | rawClose left => exact absurd hgo Bool.false_ne_true
    | character ahead => cases ahead <;> rfl
    | _ => rfl
  | nil =>
    -- in any other mode than these a scan that ends here does not end in code
    rw [List.nil_append]
    cases mode with
    | code w =>
      have hc : c ≠ '\'' := fun hc => by
        obtain ⟨n, hn⟩ := exists_bodyOnLine? (meets_of_settlesFrom h) hc
        exact absurd hn (by simp [bodyOnLine?, characterBody?])
      show codeStep .go w c rest = codeStep .go w c []
      unfold codeStep
      split
      · obtain ⟨hslash, hstar⟩ := hrest rfl rfl
        cases rest with
        | nil => rfl
        | cons e rest =>
          have hslash : e ≠ '/' := fun he => hslash (congrArg some he)
          have hstar : e ≠ '*' := fun he => hstar (congrArg some he)
          simp [hslash, hstar]
      · rfl
      · rfl
      · rfl
      · exact absurd rfl hc
      · rfl
    | blockComment => simp [settlesFrom, step] at h
    | quoted q escapes =>
      by_cases hescape : (escapes && c = '\\') = true
      · simp [settlesFrom, step, hescape, literalStep] at h
      · by_cases hq : c = q
        · unfold step
          simp only [if_neg hescape, if_pos hq]
        · simp [settlesFrom, step, hescape, hq, literalStep] at h
    | escaped q => simp [settlesFrom, step, literalStep] at h
    | rawOpen left hashes => exact absurd hgo Bool.false_ne_true
    | raw hashes => exact absurd hgo Bool.false_ne_true
    | rawClose left => exact absurd hgo Bool.false_ne_true
    | character ahead => cases ahead <;> rfl
    | _ => rfl

theorem glyphsFrom_append {mode : ScanMode} {t rest : List Char} (hgo : ofGo mode = true)
    (h : settlesFrom mode t = true) (hrest : t.getLast? = some '/' → Detached rest) :
    glyphsFrom .go mode (t ++ rest) = glyphsFrom .go mode t ++ glyphs .go rest := by
  induction t generalizing mode with
  | nil =>
    cases mode with
    | code w => exact glyphsFrom_code w rest
    | _ => exact absurd h Bool.false_ne_true
  | cons c cs ih =>
    have hstep : step .go mode c (cs ++ rest) = step .go mode c cs :=
      step_append hgo h fun hcs hc => hrest (by rw [hcs, hc]; rfl)
    have hlast : cs.getLast? = some '/' → Detached rest := by
      cases cs with
      | nil => exact fun hcs => by simp at hcs
      | cons d cs => exact hrest
    rw [List.cons_append, glyphsFrom, glyphsFrom, hstep,
      ih (ofGo_step hgo c cs) (settlesFrom_step h) hlast, List.cons_append]

/-- Where a scan settles nothing of the text reaches over its end. -/
theorem closed_of_settles {t : List Char} (h : settles t = true) : Closed t :=
  fun _ hrest => glyphsFrom_append rfl h hrest

/-! ## Bare texts -/

/-- No comment and no literal begins with a character before a text. -/
def beginsNothing (c : Char) (cs : List Char) : Bool :=
  c != '"' && c != '`' && c != '\'' &&
    !(c == '/' && (cs.head? == some '/' || cs.head? == some '*'))

/-- No comment and no literal begins in the text. -/
def isBare : List Char → Bool
  | [] => true
  | c :: cs => beginsNothing c cs && isBare cs

theorem codeStep_of_beginsNothing {c : Char} {cs : List Char} (h : beginsNothing c cs = true)
    (w : WordState) : codeStep .go w c cs = (.shown, .code (w.next c)) := by
  unfold beginsNothing at h
  simp only [Bool.and_eq_true, bne_iff_ne, Bool.not_eq_true', Bool.and_eq_false_iff,
    Bool.or_eq_false_iff, beq_eq_false_iff_ne] at h
  obtain ⟨⟨⟨hquote, hback⟩, hsingle⟩, hslash⟩ := h
  unfold codeStep
  extract_lets plain
  split
  · obtain hne | ⟨hs, ht⟩ := hslash
    · exact absurd rfl hne
    · split
      · exact absurd rfl hs
      · exact absurd rfl ht
      · rfl
  · rw [if_neg (by simp)]
  · exact absurd rfl hquote
  · exact absurd rfl hback
  · exact absurd rfl hsingle
  · rfl

theorem glyphsFrom_of_isBare {t : List Char} (h : isBare t = true) (w : WordState) :
    glyphsFrom .go (.code w) t = t.map Glyph.shown ∧ settlesFrom (.code w) t = true := by
  induction t generalizing w with
  | nil => exact ⟨rfl, rfl⟩
  | cons c cs ih =>
    rw [isBare, Bool.and_eq_true] at h
    have hstep : step .go (.code w) c cs = (.shown, .code (w.next c)) :=
      codeStep_of_beginsNothing h.1 w
    have hmeets : meets (.code w) c cs = true := by
      have := h.1
      unfold beginsNothing at this
      simp only [Bool.and_eq_true] at this
      rw [meets, this.1.2, Bool.true_or]
    obtain ⟨hglyphs, hsettles⟩ := ih h.2 (w.next c)
    constructor
    · rw [glyphsFrom, hstep, hglyphs]
      rfl
    · rw [settlesFrom_cons, hstep, Bool.and_eq_true]
      exact ⟨hmeets, hsettles⟩

theorem closed_of_isBare {t : List Char} (h : isBare t = true) : Closed t :=
  closed_of_settles (glyphsFrom_of_isBare h .fresh).2

/-- A bare text shows whole. -/
theorem mask_of_isBare {t : List Char} (h : isBare t = true) : mask .go t = t := by
  unfold mask glyphs
  rw [(glyphsFrom_of_isBare h .fresh).1]
  induction t with
  | nil => rfl
  | cons c cs ih =>
    rw [isBare, Bool.and_eq_true] at h
    rw [List.map_cons, showGlyphs_cons, ih h.2]
    rfl

theorem isBare_append {a b : List Char} (ha : isBare a = true) (hb : isBare b = true)
    (h : a.getLast? = some '/' → Detached b) : isBare (a ++ b) = true := by
  induction a with
  | nil => exact hb
  | cons c cs ih =>
    rw [isBare, Bool.and_eq_true] at ha
    have hlast : cs.getLast? = some '/' → Detached b := by
      cases cs with
      | nil => exact fun hcs => by simp at hcs
      | cons d cs => exact h
    rw [List.cons_append, isBare, Bool.and_eq_true]
    refine ⟨?_, ih ha.2 hlast⟩
    cases cs with
    | cons d cs => exact ha.1
    | nil =>
      have hc := ha.1
      unfold beginsNothing at hc ⊢
      by_cases hslash : c = '/'
      · obtain ⟨hs, ht⟩ := h (by rw [hslash]; rfl)
        rw [hslash]
        simp [hs, ht]
      · simpa [hslash] using hc

/-- A character with which nothing can begin. -/
def isBareChar (c : Char) : Bool :=
  c != '"' && c != '`' && c != '\'' && c != '/'

theorem isBare_of_all {t : List Char} (h : t.all isBareChar = true) : isBare t = true := by
  induction t with
  | nil => rfl
  | cons c cs ih =>
    rw [List.all_cons, Bool.and_eq_true] at h
    rw [isBare, Bool.and_eq_true]
    refine ⟨?_, ih h.2⟩
    have hc := h.1
    unfold isBareChar at hc
    simp only [Bool.and_eq_true, bne_iff_ne] at hc
    obtain ⟨⟨⟨hquote, hback⟩, hsingle⟩, hslash⟩ := hc
    simp [beginsNothing, hquote, hback, hsingle, hslash]

/-! ## Comments -/

/-- The scan stands in a comment, or at its borders. -/
def inComment : ScanMode → Bool
  | .lineComment | .blockOpen | .blockComment | .blockClose => true
  | _ => false

/-- A scan that begins in a mode enters no comment in the text. -/
def commentFreeFrom : ScanMode → List Char → Bool
  | _, [] => true
  | mode, c :: cs => !inComment (step .go mode c cs).2 && commentFreeFrom (step .go mode c cs).2 cs

/-- No comment begins in the text. -/
def commentFree (t : List Char) : Bool :=
  commentFreeFrom (.code .fresh) t

/-- In code only comments are hidden. -/
theorem codeStep_shown (w : WordState) (c : Char) (cs : List Char) :
    (codeStep .go w c cs).1 = .shown ∨ inComment (codeStep .go w c cs).2 = true := by
  unfold codeStep
  extract_lets plain
  repeat' split
  all_goals first | exact .inl rfl | exact .inr rfl

/-- The first character of a text without comments is code. -/
theorem mask_cons_of_commentFree {c : Char} {cs : List Char} (h : commentFree (c :: cs) = true) :
    ∃ rest, mask .go (c :: cs) = c :: rest := by
  unfold commentFree at h
  rw [commentFreeFrom, Bool.and_eq_true, Bool.not_eq_true'] at h
  have hshown : (step .go (.code .fresh) c cs).1 = .shown :=
    (codeStep_shown .fresh c cs).resolve_right fun hcomment =>
      Bool.false_ne_true (h.1.symm.trans hcomment)
  refine ⟨showGlyphs (glyphsFrom .go (step .go (.code .fresh) c cs).2 cs), ?_⟩
  unfold mask glyphs
  rw [glyphsFrom, hshown, showGlyphs_cons]
  rfl

end RpcBindings.Masked
