import RpcBindings.Proofs.Masked.Append
import RpcBindings.Proofs.Masked.Literal
import RpcBindings.Proofs.Text.Reindent

/-!
The literals of a text that is laid out anew.

Blanks neither begin nor end a literal. So a text whose blanks are laid out anew has the literals of the
text, each with the blanks in it laid out anew (`literalsFrom_reindent`). Main statement: the indented
lines of a text that has been laid out have the literals of the text so changed
(`literals_indented_tidy?`).
-/

namespace RpcBindings.Masked

open Text (Relaid allBlank reindent reindentGap EndsInInk)

variable {mode : ScanMode} {a b g : List Char}

/-! ## Blanks -/

/-- A blank neither begins nor ends a literal. -/
theorem inLiteral_step_of_isBlank {c : Char} {cs : List Char} (hmeets : meets mode c cs = true)
    (hgo : ofGo mode = true) (hc : Text.isBlank c = true) :
    inLiteral (step .go mode c cs).2 = inLiteral mode := by
  have hne {d : Char} (hd : Text.isBlank d = false) : c ≠ d := by
    rintro rfl
    exact absurd (hc.symm.trans hd) nofun
  by_cases hspan : spansLines mode = true
  · rw [(step_of_isBlank hgo hspan hc cs).2]
    cases mode with
    | lineComment =>
      rw [behindBlank]
      split <;> rfl
    | _ => rfl
  · cases mode with
    | character ahead =>
      rcases ahead with _ | ahead
      · simp [step, hne (d := '\'') (by decide), inLiteral]
      · rfl
    | blockOpen | blockClose => rfl
    | rawOpen _ _ | raw _ | rawClose _ => exact absurd hgo Bool.false_ne_true
    | code _ | lineComment | blockComment | quoted _ _ | escaped _ => exact absurd rfl hspan

/-- Blanks belong to the literal in which they stand. -/
theorem literalsFrom_blank_append (hgo : ofGo mode = true) (hg : allBlank g = true)
    (h : settlesFrom mode (g ++ a) = true) (run : List Char) :
    inLiteral (scanTo mode g a) = inLiteral mode ∧
      literalsFrom mode run (g ++ a) = literalsFrom (scanTo mode g a) (g.reverse ++ run) a := by
  induction g generalizing mode run with
  | nil => exact ⟨rfl, rfl⟩
  | cons c g ih =>
    rw [allBlank, List.all_cons, Bool.and_eq_true] at hg
    have hin : inLiteral (step .go mode c (g ++ a)).2 = inLiteral mode :=
      inLiteral_step_of_isBlank (meets_of_settlesFrom h) hgo hg.1
    have hrest (run : List Char) := ih (ofGo_step hgo c (g ++ a)) hg.2 (settlesFrom_step h) run
    rw [scanTo, (hrest []).1, List.cons_append, literalsFrom]
    refine ⟨hin, ?_⟩
    cases hmode : inLiteral mode with
    | true =>
      rw [hin, hmode, if_pos rfl, if_pos rfl, (hrest _).2, List.reverse_cons, List.append_assoc]
      rfl
    | false =>
      rw [if_neg Bool.false_ne_true, (hrest _).2]
      exact literalsFrom_of_not_inLiteral ((hrest []).1.trans (hin.trans hmode)) _ _ a

/-- Blanks that end a text hold no literal. -/
theorem literalsFrom_of_allBlank (hgo : ofGo mode = true) (hg : allBlank g = true)
    (h : settlesFrom mode g = true) (run : List Char) :
    inLiteral mode = false ∧ literalsFrom mode run g = [] := by
  rw [← List.append_nil g] at h ⊢
  obtain ⟨hin, hliterals⟩ := literalsFrom_blank_append hgo hg h run
  obtain ⟨w, hw⟩ := eq_code_of_settlesFrom_nil (settlesFrom_scanTo h)
  rw [hw] at hin hliterals
  exact ⟨hin.symm, hliterals⟩

/-- Blanks behind a text do not count. -/
theorem literalsFrom_append_blank (hgo : ofGo mode = true) (hb : allBlank b = true)
    (h : settlesFrom mode (a ++ b) = true) (run : List Char) :
    literalsFrom mode run (a ++ b) = literalsFrom mode run a := by
  induction a generalizing mode run with
  | nil =>
    obtain ⟨hin, hnone⟩ := literalsFrom_of_allBlank hgo hb h run
    rw [literalsFrom, hin]
    exact hnone
  | cons c a ih =>
    have hstep := step_append_blank hgo hb (e := []) rfl h
    rw [List.append_nil] at hstep
    have hrest (run : List Char) :
        literalsFrom (step .go mode c (a ++ b)).2 run (a ++ b) =
          literalsFrom (step .go mode c (a ++ b)).2 run a :=
      ih (ofGo_step hgo c (a ++ b)) (settlesFrom_step h) run
    rw [List.cons_append, literalsFrom, literalsFrom, hstep]
    simp only [hrest]

/-- A literal that ends in its text ends in a quote. -/
theorem endsInInk_of_mem_literalsFrom {run cs l : List Char} (hgo : ofGo mode = true)
    (h : settlesFrom mode cs = true) (hl : l ∈ literalsFrom mode run cs) : EndsInInk l := by
  induction cs generalizing mode run with
  | nil =>
    obtain ⟨w, rfl⟩ := eq_code_of_settlesFrom_nil h
    exact absurd hl List.not_mem_nil
  | cons c cs ih =>
    have hrest {run : List Char} := @ih (step .go mode c cs).2 run (ofGo_step hgo c cs)
      (settlesFrom_step h)
    rw [literalsFrom] at hl
    split at hl
    · rename_i hin
      split at hl
      · exact hrest hl
      · rename_i hout
        rcases List.mem_cons.1 hl with rfl | hl
        · -- a blank would not end the literal
          have hc : Text.isBlank c = false := Bool.eq_false_iff.2 fun hblank =>
            hout ((inLiteral_step_of_isBlank (meets_of_settlesFrom h) hgo hblank).trans hin)
          rw [List.reverse_cons]
          exact Text.endsInInk_concat hc _
        · exact hrest hl
    · exact hrest hl

theorem literals_append_blank (hb : allBlank b = true) (h : settles (a ++ b) = true) :
    literals (a ++ b) = literals a :=
  have hgo : ofGo (.code .fresh) = true := rfl
  literalsFrom_append_blank hgo hb h []

/-! ## Blanks that are laid out anew -/

/-- The scan stands behind a text where it does before another layout of what follows. -/
theorem scanTo_of_relaid (h : Relaid a b) (hgo : ofGo mode = true) {x : List Char}
    (hx : settlesFrom mode (x ++ a) = true) : scanTo mode x b = scanTo mode x a := by
  induction x generalizing mode with
  | nil => rfl
  | cons c x ih =>
    have hstep := (step_of_relaid (h.append_left x) hgo (meets_of_settlesFrom hx)).2
    rw [scanTo, scanTo, hstep]
    exact ih (ofGo_step hgo c (x ++ a)) (settlesFrom_step hx)

theorem scanTo_blanks (hgo : ofGo mode = true) (hspan : spansLines mode = true)
    (hg : allBlank g = true) (a : List Char) : scanTo mode g a = g.foldl behindBlank mode := by
  induction g generalizing mode with
  | nil => rfl
  | cons c g ih =>
    rw [allBlank, List.all_cons, Bool.and_eq_true] at hg
    have hstep := (step_of_isBlank hgo hspan hg.1 (g ++ a)).2
    rw [scanTo, hstep]
    exact ih (hstep ▸ ofGo_step hgo c (g ++ a)) (spansLines_behindBlank hspan c) hg.2

/-- Blanks before a text do not count. -/
theorem literals_blank_append (hg : allBlank g = true) (h : settles (g ++ a) = true) :
    literals (g ++ a) = literals a := by
  have hgo : ofGo (.code .fresh) = true := rfl
  have hcode (g : List Char) : g.foldl behindBlank (.code .fresh) = .code .fresh := by
    induction g with
    | nil => rfl
    | cons c g ih => exact ih
  rw [literals, (literalsFrom_blank_append hgo hg h []).2, scanTo_blanks hgo rfl hg, hcode]
  exact literalsFrom_of_not_inLiteral rfl _ _ a

/-- Blanks lead where they do when they are laid out anew. -/
theorem scanTo_reindentGap {n : Nat} (h : Relaid a b) (hgo : ofGo mode = true)
    (hg : allBlank g = true) (hsettles : settlesFrom mode (g ++ a) = true) :
    scanTo mode (reindentGap n g) b = scanTo mode g a := by
  by_cases hline : '\n' ∈ g
  · have hspan := spansLines_of_settlesFrom hgo hg hline hsettles
    rw [scanTo_blanks hgo hspan hg, scanTo_blanks hgo hspan (Text.allBlank_reindentGap hg),
      foldl_behindBlank hline, foldl_behindBlank (Text.newline_mem_reindentGap hline)]
  · rw [reindentGap, if_neg hline]
    exact scanTo_of_relaid h hgo hsettles

/-- A literal with its end, laid out anew. -/
theorem reindent_run_append {n : Nat} {run : List Char} {c : Char} (hrun : EndsInInk run.reverse)
    (hg : allBlank g = true) (hc : Text.isBlank c = false) :
    reindent n (c :: (g.reverse ++ run)).reverse =
      (c :: ((reindentGap n g).reverse ++ (reindent n run.reverse).reverse)).reverse := by
  have hone : reindent n [] = [] := rfl
  have hsplit : (c :: (g.reverse ++ run)).reverse = run.reverse ++ (g ++ [c]) := by simp
  rw [hsplit, Text.reindent_append hrun, Text.reindent_run hg hc, hone]
  simp

/-- One character, when the literals behind it are the same but for the blanks in them. -/
theorem literalsFrom_cons_reindent {n : Nat} {c : Char} {run run' : List Char}
    (hc : Text.isBlank c = false) (hstep : step .go mode c b = step .go mode c a)
    (hrun : reindent n (c :: run).reverse = (c :: run').reverse)
    (hrest : ∀ run, EndsInInk run.reverse →
      literalsFrom (step .go mode c a).2 (reindent n run.reverse).reverse b =
        (literalsFrom (step .go mode c a).2 run a).map (reindent n)) :
    literalsFrom mode run' (c :: b) = (literalsFrom mode run (c :: a)).map (reindent n) := by
  have hread := hrest (c :: run) (by rw [List.reverse_cons]; exact Text.endsInInk_concat hc _)
  have hnone := hrest [] nofun
  have hfirst := hrest [c] (Text.endsInInk_concat hc [])
  have hone : reindent n [c].reverse = [c] := by
    refine Text.reindent_of_not_mem (fun hmem => ?_) (Text.endsInInk_concat hc [])
    rw [← List.mem_singleton.1 hmem] at hc
    exact absurd hc (by decide)
  rw [hrun, List.reverse_reverse] at hread
  rw [hone] at hfirst
  rw [literalsFrom, literalsFrom, hstep]
  split
  · split
    · exact hread
    · rw [List.map_cons, hrun, ← hnone]
      rfl
  · split
    · exact hfirst
    · exact hnone

/-- A text whose blanks are laid out anew has the literals of the text, with their blanks laid out
anew. -/
theorem literalsFrom_reindent (n : Nat) {cs run : List Char} (hgo : ofGo mode = true)
    (h : settlesFrom mode (cs ++ ['\n']) = true) (hrun : EndsInInk run.reverse) :
    literalsFrom mode (reindent n run.reverse).reverse (reindent n cs ++ ['\n']) =
      (literalsFrom mode run (cs ++ ['\n'])).map (reindent n) := by
  induction cs using Text.runs_induction generalizing mode run with
  | blank g hg =>
    have hline := (settlesFrom_of_relaid (Text.relaid_reindent (n := n) g) hgo h).1
    rw [Text.reindent_of_allBlank hg] at hline ⊢
    have hall : allBlank (g ++ ['\n']) = true := Text.allBlank_append.2 ⟨hg, rfl⟩
    rw [(literalsFrom_of_allBlank hgo hall h run).2,
      (literalsFrom_of_allBlank hgo (g := [] ++ ['\n']) rfl hline _).2]
    rfl
  | run g c cs hg hc ih =>
    -- both scans stand alike before the character
    have hrelaid := Text.relaid_reindent (n := n) cs
    have hwhole := (settlesFrom_of_relaid (Text.relaid_reindent (n := n) (g ++ c :: cs)) hgo h).1
    rw [Text.reindent_run hg hc] at hwhole ⊢
    rw [List.append_assoc, List.cons_append] at h hwhole
    have hsame := scanTo_reindentGap (n := n) (hrelaid.char c) hgo hg h
    obtain ⟨-, hleft⟩ := literalsFrom_blank_append hgo (Text.allBlank_reindentGap hg) hwhole
      (reindent n run.reverse).reverse
    obtain ⟨-, hright⟩ := literalsFrom_blank_append hgo hg h run
    have hsettles := settlesFrom_scanTo h
    have hgo' := @ofGo_scanTo mode hgo g (c :: (cs ++ ['\n']))
    have hstep := (step_of_relaid hrelaid hgo' (meets_of_settlesFrom hsettles)).2
    rw [hsame] at hleft
    rw [List.append_assoc, List.append_assoc, List.cons_append, List.cons_append]
    exact hleft.trans ((literalsFrom_cons_reindent hc hstep (reindent_run_append hrun hg hc)
      fun run' hrun' => ih (ofGo_step hgo' c _) (settlesFrom_step hsettles) hrun').trans
        (congrArg (List.map (reindent n)) hright).symm)

/-! ## Whole lines -/

/-- A text of whole lines behind which neither a comment nor a literal is open. -/
structure ClosedLines (t : List Char) : Prop where
  settles : settles t = true
  last : ∀ c ∈ t.getLast?, c = '\n'

/-- Closed lines have their literals whatever follows them. -/
theorem ClosedLines.literals_append {t : List Char} (h : ClosedLines t) (rest : List Char) :
    literals (t ++ rest) = literals t ++ literals rest := by
  have hslash : (mask .go t).getLast? ≠ some '/' := fun hlast =>
    absurd ((lined_ofSource h.last).code_last _ hlast) (by decide)
  obtain ⟨w, hw⟩ := exists_scanTo_of_settles rfl h.settles hslash rest
  exact Masked.literals_append hw

/-- The lines of a text that has been laid out, with one more tab before each, are closed when the text
is, and have its literals with the blanks in them laid out anew. -/
theorem literals_indented_tidy? {u kept : List Char} (hu : LexicallyClosed u)
    (h : Text.tidy? u = some kept) :
    ClosedLines ((Text.lines kept).flatMap (Text.retabbed 0)) ∧
      literals ((Text.lines kept).flatMap (Text.retabbed 0)) =
        (literals u).map (reindent (Text.sharedIndent u)) := by
  obtain ⟨e, u', rfl, he, hlines⟩ := Text.exists_indented_tidy? h
  generalize Text.sharedIndent (e ++ u') = n at hlines ⊢
  generalize (Text.lines kept).flatMap (Text.retabbed 0) = t at hlines ⊢
  have hgo : ofGo (.code .fresh) = true := rfl
  have hline : allBlank ['\n'] = true := rfl
  have hclosed : settles (e ++ (u' ++ ['\n'])) = true := by rwa [← List.append_assoc]
  have hu' : settles ('\n' :: u' ++ ['\n']) = true := by
    rw [(settles_blank_append he).1] at hclosed
    exact (settles_blank_append (b := ['\n']) hline).1.trans hclosed
  have ht : settles (['\n'] ++ t) = true := by
    have hrelaid := Text.relaid_reindent (n := n) ('\n' :: u')
    rw [List.singleton_append, hlines]
    exact (settlesFrom_of_relaid hrelaid hgo hu').1
  refine ⟨⟨?_, fun c hc => ?_⟩, ?_⟩
  · rwa [(settles_blank_append hline).1] at ht
  · have hlast : ('\n' :: t).getLast? = some '\n' := by rw [hlines, List.getLast?_concat]
    rw [List.getLast?_cons, hc] at hlast
    exact Option.some.inj hlast
  · calc literals t
        = literals (['\n'] ++ t) := (literals_blank_append hline ht).symm
      _ = literals (reindent n ('\n' :: u') ++ ['\n']) := congrArg literals hlines
      _ = (literals ('\n' :: u' ++ ['\n'])).map (reindent n) :=
          @literalsFrom_reindent _ n _ [] hgo hu' nofun
      _ = (literals (u' ++ ['\n'])).map (reindent n) :=
          congrArg (List.map (reindent n)) (literals_blank_append hline hu')
      _ = (literals (e ++ (u' ++ ['\n']))).map (reindent n) :=
          congrArg (List.map (reindent n)) (literals_blank_append he hclosed).symm
      _ = (literals (e ++ u')).map (reindent n) := by
          rw [← List.append_assoc]
          exact congrArg (List.map (reindent n)) (literals_append_blank hline hu)

end RpcBindings.Masked
