import RpcBindings.Proofs.Client.KeptCode

/-!
The literals of a Go text.

Each literal is known with the offset where it begins; its text is a token of the text
(`filterMap_tokens`). Main statement: a text that is read up to a place in code has the literals before
that place and those of the text behind it (`placedFrom_append`).
-/

namespace RpcBindings

/-- A literal of a text and the offset where it begins. -/
structure PlacedLiteral where
  start : Nat
  text : List Char
  deriving DecidableEq, Repr

namespace PlacedLiteral

/-- The literal lies between the ends of a part of the text. -/
def LiesIn (l : PlacedLiteral) (s : Span) : Prop :=
  s.start ≤ l.start ∧ l.start + Text.byteLength l.text ≤ s.stop

instance (l : PlacedLiteral) (s : Span) : Decidable (l.LiesIn s) :=
  inferInstanceAs (Decidable (_ ∧ _))

/-- The literal in a text that more bytes stand before. -/
def shift (n : Nat) (l : PlacedLiteral) : PlacedLiteral :=
  { l with start := n + l.start }

theorem map_shift_shift (n n' : Nat) (ls : List PlacedLiteral) :
    (ls.map (shift n)).map (shift n') = ls.map (shift (n' + n)) := by
  rw [List.map_map]
  refine List.map_congr_left fun l _ => ?_
  simp [shift, Nat.add_assoc]

end PlacedLiteral

namespace Masked

/-- The literals of a text that is read from a mode and an offset on, with the literal that is being
read: where it begins and its characters, last one first. -/
def placedFrom : ScanMode → Nat → Nat → List Char → List Char → List PlacedLiteral
  | mode, _, start, run, [] => if inLiteral mode then [⟨start, run.reverse⟩] else []
  | mode, i, start, run, c :: cs =>
    let next := (step .go mode c cs).2
    let j := i + c.utf8Size
    if inLiteral mode then
      if inLiteral next then placedFrom next j start (c :: run) cs
      else ⟨start, (c :: run).reverse⟩ :: placedFrom next j j [] cs
    else if inLiteral next then placedFrom next j i [c] cs
    else placedFrom next j j [] cs

/-- The literals of a Go text and where they begin. -/
def placedLiterals (t : List Char) : List PlacedLiteral :=
  placedFrom (.code .fresh) 0 0 [] t

/-- The literals of a text that is read from a mode on, with the part of one that has been read, last
character first. -/
def literalsFrom : ScanMode → List Char → List Char → List (List Char)
  | mode, run, [] => if inLiteral mode then [run.reverse] else []
  | mode, run, c :: cs =>
    let next := (step .go mode c cs).2
    if inLiteral mode then
      if inLiteral next then literalsFrom next (c :: run) cs
      else (c :: run).reverse :: literalsFrom next [] cs
    else literalsFrom next (if inLiteral next then [c] else []) cs

/-- The literals of a Go text. -/
def literals (t : List Char) : List (List Char) :=
  literalsFrom (.code .fresh) [] t

/-- Which literals a text has does not depend on where it stands. -/
theorem map_text_placedFrom (mode : ScanMode) (i start : Nat) (run cs : List Char) :
    (placedFrom mode i start run cs).map (·.text) = literalsFrom mode run cs := by
  induction cs generalizing mode i start run with
  | nil =>
    rw [placedFrom, literalsFrom]
    split <;> rfl
  | cons c cs ih =>
    rw [placedFrom, literalsFrom]
    split
    · split
      · exact ih ..
      · rw [List.map_cons, ih]
    · split
      · exact ih ..
      · exact ih ..

theorem map_text_placedLiterals (t : List Char) : (placedLiterals t).map (·.text) = literals t :=
  map_text_placedFrom ..

/-- Outside of literals it does not matter which one was read before. -/
theorem literalsFrom_of_not_inLiteral {mode : ScanMode} (h : inLiteral mode = false)
    (run run' cs : List Char) : literalsFrom mode run cs = literalsFrom mode run' cs := by
  cases cs with
  | nil => rw [literalsFrom, literalsFrom, h]; rfl
  | cons c cs => rw [literalsFrom, literalsFrom, h]; rfl

/-! ## Tokens -/

/-- No literal begins in a comment. -/
theorem not_inLiteral_step_of_inComment {mode : ScanMode} (h : inComment mode = true) (c : Char)
    (cs : List Char) : inLiteral (step .go mode c cs).2 = false := by
  cases mode with
  | lineComment =>
    rw [step]
    split <;> rfl
  | blockComment =>
    rw [step]
    split <;> rfl
  | blockOpen | blockClose => rfl
  | _ => exact absurd h Bool.false_ne_true

/-- The text of a token that is a literal. -/
def GoToken.literal? : GoToken → Option (List Char)
  | .literal text => some text
  | .comma | .code _ => none

theorem filterMap_endRun (run : List Char) : (endRun run).filterMap GoToken.literal? = [] := by
  unfold endRun
  split <;> rfl

theorem filterMap_tokensFrom (mode : ScanMode) (run cs : List Char) :
    (tokensFrom mode run cs).filterMap GoToken.literal? = literalsFrom mode run cs := by
  induction cs generalizing mode run with
  | nil =>
    rw [tokensFrom, literalsFrom]
    split
    · rfl
    · exact filterMap_endRun run
  | cons c cs ih =>
    rw [tokensFrom, literalsFrom, List.filterMap_append, ih, tokenStep]
    split
    · split <;> rfl
    · split
      · have hout := not_inLiteral_step_of_inComment ‹inComment mode = true› c cs
        rw [hout]
        rfl
      · split
        · rw [filterMap_endRun]
          rfl
        · have hrest (run : List Char) :
              literalsFrom (step .go mode c cs).2 run cs = literalsFrom (step .go mode c cs).2 [] cs :=
            literalsFrom_of_not_inLiteral (Bool.eq_false_iff.2 ‹_›) run [] cs
          split
          · rw [filterMap_endRun, hrest]
            rfl
          · split
            · rw [List.filterMap_append, filterMap_endRun, hrest]
              rfl
            · rw [hrest]
              rfl

/-- The literals of a text are the tokens of it that are literals. -/
theorem filterMap_tokens (t : List Char) :
    (tokens t).filterMap GoToken.literal? = literals t :=
  filterMap_tokensFrom ..

/-! ## Parts of a text -/

theorem placedFrom_shift (n : Nat) (mode : ScanMode) (i start : Nat) (run cs : List Char) :
    placedFrom mode (n + i) (n + start) run cs =
      (placedFrom mode i start run cs).map (PlacedLiteral.shift n) := by
  induction cs generalizing mode i start run with
  | nil =>
    rw [placedFrom, placedFrom]
    split <;> rfl
  | cons c cs ih =>
    rw [placedFrom, placedFrom]
    simp only [Nat.add_assoc]
    split
    · split
      · exact ih ..
      · rw [List.map_cons, ih]
        rfl
    · split
      · exact ih ..
      · exact ih ..

/-- In code it does not matter which word is being read, nor what literal was read before. -/
theorem placedFrom_code (v w : WordState) (i start start' : Nat) (run run' cs : List Char) :
    placedFrom (.code v) i start run cs = placedFrom (.code w) i start' run' cs := by
  induction cs generalizing v w i start start' run run' with
  | nil => rfl
  | cons c cs ih =>
    rw [placedFrom, placedFrom]
    obtain ⟨-, heq | ⟨v', w', hv, hw⟩⟩ := codeStep_go v w c cs
    · have heq : (step .go (.code v) c cs).2 = (step .go (.code w) c cs).2 := heq
      rw [heq]
      rfl
    · have hv : (step .go (.code v) c cs).2 = .code v' := hv
      have hw : (step .go (.code w) c cs).2 = .code w' := hw
      rw [hv, hw]
      exact ih ..

/-- A text has the literals before a place in code and those behind it. -/
theorem placedFrom_append {mode : ScanMode} {a rest : List Char} {w : WordState}
    (hgo : ofGo mode = true) (hmode : scanTo mode a rest = .code w) (i start : Nat) (run : List Char) :
    placedFrom mode i start run (a ++ rest) = placedFrom mode i start run a ++
      (placedLiterals rest).map (PlacedLiteral.shift (i + Text.byteLength a)) := by
  induction a generalizing mode i start run with
  | nil =>
    obtain rfl : mode = .code w := hmode
    have hshift := placedFrom_shift i (.code w) 0 0 run rest
    rw [Nat.add_zero] at hshift
    rw [List.nil_append, Text.byteLength_nil, Nat.add_zero, placedLiterals,
      placedFrom_code .fresh w 0 0 0 [] run, ← hshift, placedFrom_code w w i start i run run]
    rfl
  | cons c a ih =>
    have hstep := step_eq_of_scanTo hgo hmode
    rw [scanTo, hstep] at hmode
    have hlater := ih (ofGo_step hgo c a) hmode
    rw [List.cons_append, placedFrom, placedFrom, hstep]
    simp only [Text.byteLength_cons, ← Nat.add_assoc]
    split
    · split
      · exact hlater ..
      · rw [hlater, List.cons_append]
    · split
      · exact hlater ..
      · exact hlater ..

theorem placedLiterals_append {v w : WordState} {a rest : List Char}
    (hmode : scanTo (.code v) a rest = .code w) :
    placedLiterals (a ++ rest) =
      placedLiterals a ++ (placedLiterals rest).map (PlacedLiteral.shift (Text.byteLength a)) := by
  have hplaced := placedFrom_append rfl hmode 0 0 []
  rwa [Nat.zero_add, placedFrom_code v .fresh 0 0 0 [] [], placedFrom_code v .fresh 0 0 0 [] []]
    at hplaced

theorem map_text_shift (n : Nat) (t : List Char) :
    ((placedLiterals t).map (PlacedLiteral.shift n)).map (·.text) = literals t := by
  rw [List.map_map]
  exact map_text_placedLiterals t

theorem literals_append {v w : WordState} {a rest : List Char}
    (hmode : scanTo (.code v) a rest = .code w) :
    literals (a ++ rest) = literals a ++ literals rest := by
  rw [← map_text_placedLiterals, placedLiterals_append hmode, List.map_append, map_text_shift,
    map_text_placedLiterals]

/-- A literal is not empty and lies in its text. -/
theorem placedFrom_bounds {mode : ScanMode} {i start : Nat} {run cs : List Char} {l : PlacedLiteral}
    (hrun : inLiteral mode = true → run ≠ [] ∧ start + Text.byteLength run.reverse = i)
    (h : l ∈ placedFrom mode i start run cs) :
    l.text ≠ [] ∧ l.start + Text.byteLength l.text ≤ i + Text.byteLength cs := by
  induction cs generalizing mode i start run with
  | nil =>
    rw [placedFrom] at h
    split at h
    · obtain rfl := List.mem_singleton.1 h
      obtain ⟨hne, hi⟩ := hrun ‹_›
      exact ⟨by simpa using hne, by rw [hi]; exact Nat.le_add_right _ _⟩
    · exact absurd h List.not_mem_nil
  | cons c cs ih =>
    -- the run with the character, where the scan is in a literal
    have hread (hin : inLiteral mode = true) :
        c :: run ≠ [] ∧ start + Text.byteLength (c :: run).reverse = i + c.utf8Size := by
      have := (hrun hin).2
      rw [List.reverse_cons, Text.byteLength_append, Text.byteLength_cons, Text.byteLength_nil]
      exact ⟨List.cons_ne_nil c run, by omega⟩
    rw [placedFrom] at h
    rw [Text.byteLength_cons, ← Nat.add_assoc]
    split at h
    · rename_i hin
      split at h
      · exact ih (fun _ => hread hin) h
      · rename_i hout
        rcases List.mem_cons.1 h with rfl | h
        · have := (hread hin).2
          exact ⟨by simp, by dsimp only; omega⟩
        · exact ih (fun hin => absurd hin hout) h
    · split at h
      · exact ih (fun _ => ⟨List.cons_ne_nil c [], rfl⟩) h
      · rename_i hout
        exact ih (fun hin => absurd hin hout) h

/-- A literal of a text that stands at an offset is not empty and lies in the text. -/
theorem bounds_of_mem_placedLiterals {n : Nat} {t : List Char} {l : PlacedLiteral}
    (h : l ∈ (placedLiterals t).map (PlacedLiteral.shift n)) : 0 < Text.byteLength l.text ∧
      n ≤ l.start ∧ l.start + Text.byteLength l.text ≤ n + Text.byteLength t := by
  obtain ⟨l, hl, rfl⟩ := List.mem_map.1 h
  obtain ⟨hne, hle⟩ := @placedFrom_bounds (.code .fresh) 0 0 [] t l
    (fun hin => absurd hin Bool.false_ne_true) hl
  rw [Nat.zero_add] at hle
  refine ⟨Nat.pos_of_ne_zero fun hzero => hne (Text.byteLength_eq_zero hzero),
    Nat.le_add_right _ _, ?_⟩
  show n + l.start + Text.byteLength l.text ≤ n + Text.byteLength t
  omega

end Masked

end RpcBindings
