import RpcBindings.Proofs.Client.Site
import RpcBindings.Proofs.Masked.Pieces
import RpcBindings.Proofs.Masked.Splitting
import RpcBindings.Proofs.Masked.Token

/-!
The arguments of a call, from the source to the one line of a batched method.

The arguments are split on the masked copy, and each is put on one line as it stands in the source.
Main statement: what follows the address of the result is read alike before and after, when no
argument holds a line comment or a quote that stands alone, and those that span lines hold no blanks
but single spaces inside of their literals (`callArgs_keep_tokens`). A line comment does not end on
its line any more and takes along what follows it (`callArgs_lose_tokens`).
-/

namespace RpcBindings

namespace Masked

variable {source : List Char} {i j : Nat}

/-! ## Pieces -/

theorem intercalate_concat_nil {α : Type} (sep a : List α) (ts : List (List α)) :
    sep.intercalate (a :: ts ++ [[]]) = sep.intercalate (a :: ts) ++ sep := by
  induction ts generalizing a with
  | nil => simp
  | cons b ts ih =>
    have hlater := ih b
    rw [List.cons_append] at hlater
    rw [List.cons_append, List.cons_append, List.intercalate_cons_cons, List.intercalate_cons_cons,
      hlater, List.append_assoc (a ++ sep)]

/-- A comma that ends a piece stands in code, and code follows it. -/
theorem inCode_of_endsPiece (h : (ofSource .go source).EndsAt (endsPiece ','.toUInt8) i j)
    (hsize : j + 1 < (ofSource .go source).size) :
    (ofSource .go source).InCode j ∧ (ofSource .go source).InCode (j + 1) :=
  inCode_of_hasChar (hasChar_of_endsAt h) (by decide) hsize

/-- The pieces of a text between two offsets in code begin and end in code. -/
theorem inCode_of_mem_splitTopLevel {s : Span} (hi : (ofSource .go source).InCode i)
    (hj : (ofSource .go source).InCode j) (hij : i ≤ j) (hsize : j < (ofSource .go source).size)
    (hs : s ∈ (ofSource .go source).splitTopLevel i j ',') :
    (ofSource .go source).InCode s.start ∧ (ofSource .go source).InCode s.stop ∧
      s.start ≤ s.stop :=
  (laidOut_splitTopLevel ',' hij (Nat.le_of_lt hsize)).forall_ends
    (fun _ _ hlt hend => inCode_of_endsPiece hend (by omega)) hi hj s hs

/-! ## One argument -/

/-- An argument that can be put on one line: it holds no line comment and no quote that stands alone,
and when it spans lines, no blanks but single spaces inside of its literals. -/
structure Flattens (a : List Char) : Prop where
  legible : legible a = true
  comments : lineCommentFree a = true
  literals : '\n' ∈ Text.trim a → spaced (Text.trim a) = true

instance (a : List Char) : Decidable (Flattens a) :=
  decidable_of_iff (legible a = true ∧ lineCommentFree a = true ∧
      ('\n' ∈ Text.trim a → spaced (Text.trim a) = true))
    ⟨fun ⟨h₁, h₂, h₃⟩ => ⟨h₁, h₂, h₃⟩, fun h => ⟨h.1, h.2, h.3⟩⟩

/-- An argument is read alike on one line, and leaves nothing open there. -/
theorem Flattens.onOneLine {a : List Char} (h : Flattens a) {w : WordState}
    (hend : endMode .go a = .code w) :
    tokens (onOneLine a) = tokens a ∧ settles (onOneLine a) = true ∧ '\n' ∉ onOneLine a := by
  have hsettles : settles a = true := settlesFrom_of_endModeFrom h.legible hend
  obtain ⟨htokens, htrim, hfree⟩ := tokens_trim h.comments hsettles
  unfold Masked.onOneLine
  dsimp only
  split
  · rename_i hline
    obtain ⟨hwords, hjoined⟩ := tokens_words (Text.trimStart_trim a) hfree htrim
      (h.literals (List.contains_iff_mem.1 hline))
    refine ⟨hwords.trans htokens, hjoined, ?_⟩
    rw [Text.intercalate_words]
    exact not_mem_collapse (by decide) (by decide) _
  · rename_i hline
    exact ⟨htokens, htrim, fun hmem => hline (List.contains_iff_mem.2 hmem)⟩

/-- Nothing is read of a text that shows only blanks. -/
theorem tokensFrom_of_allBlank {mode : ScanMode} {t : List Char} (hgo : ofGo mode = true)
    (hmode : inLiteral mode = false)
    (h : Text.allBlank (showGlyphs (glyphsFrom .go mode t)) = true) : tokensFrom mode [] t = [] := by
  induction t generalizing mode with
  | nil =>
    rw [tokensFrom, hmode]
    rfl
  | cons c t ih =>
    have hsplit : Text.allBlank (Glyph.code ⟨c, (step .go mode c t).1⟩) = true ∧
        Text.allBlank (showGlyphs (glyphsFrom .go (step .go mode c t).2 t)) = true := by
      rwa [glyphsFrom, showGlyphs_cons, Text.allBlank_append] at h
    have hread : tokenStep mode (step .go mode c t).2 [] c = ([], []) ∧
        inLiteral (step .go mode c t).2 = false := by
      by_cases hcomment : inComment mode = true
      · refine ⟨by simp [tokenStep, hmode, hcomment], ?_⟩
        cases mode with
        | lineComment => unfold step; simp only; split <;> rfl
        | blockOpen => rfl
        | blockComment => unfold step; simp only; split <;> rfl
        | blockClose => rfl
        | _ => exact absurd hcomment Bool.false_ne_true
      · -- in code a character shows, so it is a blank, or it opens a comment
        cases mode with
        | code w =>
          obtain hshown | hopens := codeStep_shown w c t
          · have hmark : (step .go (.code w) c t).1 = .shown := hshown
            have hblank := hsplit.1
            rw [hmark, Text.allBlank, List.all_eq_true] at hblank
            have hblank : Text.isBlank c = true := hblank c (List.mem_singleton.2 rfl)
            rw [step_code_of_isBareChar (isBareChar_of_isBlank hblank)]
            refine ⟨?_, rfl⟩
            simp [tokenStep, inLiteral, inComment, hblank, endRun]
          · have hopens : inComment (step .go (.code w) c t).2 = true := hopens
            have hnone : inLiteral (step .go (.code w) c t).2 = false := by
              revert hopens
              cases (step .go (.code w) c t).2 <;> simp [inComment, inLiteral]
            refine ⟨?_, hnone⟩
            unfold tokenStep
            rw [hnone, hopens]
            rfl
        | quoted q escapes => exact absurd hmode.symm Bool.false_ne_true
        | escaped q => exact absurd hmode.symm Bool.false_ne_true
        | character ahead => exact absurd hmode.symm Bool.false_ne_true
        | rawOpen left hashes => exact absurd hgo Bool.false_ne_true
        | raw hashes => exact absurd hgo Bool.false_ne_true
        | rawClose left => exact absurd hgo Bool.false_ne_true
        | _ => exact absurd rfl hcomment
    rw [tokensFrom_cons rfl, hread.1, ih (ofGo_step hgo c t) hread.2 hsplit.2]
    rfl

/-! ## All arguments -/

/-- Texts between commas are read one by one, whatever blanks stand behind the commas. -/
theorem tokens_intercalate {blank : List Char} {ts : List (List Char)}
    (hblank : Text.allBlank blank = true) (h : ∀ t ∈ ts.dropLast, settles t = true) :
    tokens ((',' :: blank).intercalate ts) = [GoToken.comma].intercalate (ts.map tokens) := by
  induction ts with
  | nil => rfl
  | cons t ts ih =>
    cases ts with
    | nil => simp [List.intercalate]
    | cons u ts =>
      rw [List.dropLast_cons_cons] at h
      have hlater := ih fun x hx => h x (List.mem_cons_of_mem t hx)
      have hjoin : [GoToken.comma].intercalate ((t :: u :: ts).map tokens) =
          tokens t ++ .comma :: [GoToken.comma].intercalate ((u :: ts).map tokens) := by
        simp [List.intercalate]
      rw [List.intercalate_cons_cons, List.append_assoc, List.cons_append,
        tokens_append_comma (h t List.mem_cons_self), tokens_blank_append hblank, hlater, hjoin]

theorem not_mem_intercalate {sep : List Char} {ts : List (List Char)} {c : Char} (hsep : c ∉ sep)
    (h : ∀ t ∈ ts, c ∉ t) : c ∉ sep.intercalate ts := by
  induction ts with
  | nil => exact List.not_mem_nil
  | cons t ts ih =>
    have hlater := ih fun x hx => h x (List.mem_cons_of_mem t hx)
    cases ts with
    | nil => simpa [List.intercalate] using h t List.mem_cons_self
    | cons u ts =>
      rw [List.intercalate_cons_cons, List.mem_append, List.mem_append]
      rintro ((hmem | hmem) | hmem)
      · exact h t List.mem_cons_self hmem
      · exact hsep hmem
      · exact hlater hmem

/-- Arguments on one line leave nothing open. -/
theorem closed_intercalate {ts : List (List Char)} (h : ∀ t ∈ ts, settles t = true) :
    Closed ([',', ' '].intercalate ts) := by
  induction ts with
  | nil => exact closed_nil
  | cons t ts ih =>
    have ht := closed_of_settles (h t List.mem_cons_self)
    have hlater := ih fun x hx => h x (List.mem_cons_of_mem t hx)
    cases ts with
    | nil =>
      rw [List.intercalate_singleton]
      exact ht
    | cons u ts =>
      rw [List.intercalate_cons_cons, List.append_assoc]
      have hspace : Closed [' '] := closed_of_isBare (by decide)
      have := ht.append_comma (hspace.append hlater fun hslash => absurd hslash (by decide))
      simpa using this

/-- The arguments of a call are the source between its parentheses, but for a comma behind the last
one and comments behind that. -/
theorem arguments_spec {s : Span} {a b : List Char} {rest : List (List Char)}
    (hstart : (ofSource .go source).InCode s.start) (hstop : (ofSource .go source).InCode s.stop)
    (hle : s.start ≤ s.stop) (hsize : s.stop < (ofSource .go source).size)
    (h : (ofSource .go source).arguments s = a :: b :: rest) :
    ∃ first second others, ((ofSource .go source).splitTopLevel s.start s.stop ',').map
        (ofSource .go source).spanText = first :: second :: others ∧
      a = onOneLine first ∧ b :: rest = (second :: others).map onOneLine ∧
      (∀ t ∈ second :: others, ∃ w, endMode .go t = .code w) ∧
      ∃ behind, (ofSource .go source).spanText s = first ++ ',' :: behind ∧
        (behind = [','].intercalate (second :: others) ∨
          ∃ tail, behind = [','].intercalate (second :: others ++ [tail]) ∧ tokens tail = []) := by
  have hlaid := laid_piecesFrom ','.toUInt8 hle (Nat.le_of_lt hsize)
  have hpieces := hlaid.forall_ends
    (fun _ _ hlt hend => inCode_of_endsPiece hend (by omega)) hstart hstop
  have htext := hlaid.intercalate_spanText (by decide) (by decide) hstart.cutsAt hstop.cutsAt
  unfold Masked.arguments at h
  unfold splitTopLevel withTail at h ⊢
  generalize piecesFrom ','.toUInt8 0 s.start s.start
    ((ofSource .go source).byteSlice s.start s.stop) = read at *
  obtain ⟨spans, last⟩ := read
  -- a list of pieces that is not shorter than two
  have hsplit {pieces : List Span}
      (hends : ∀ p ∈ pieces, ∃ w, endMode .go ((ofSource .go source).spanText p) = .code w)
      (hargs : pieces.map (fun p => onOneLine ((ofSource .go source).spanText p)) = a :: b :: rest) :
      ∃ first second others, pieces.map (ofSource .go source).spanText = first :: second :: others ∧
        a = onOneLine first ∧ b :: rest = (second :: others).map onOneLine ∧
        ∀ t ∈ second :: others, ∃ w, endMode .go t = .code w := by
    obtain ⟨p, ps, rfl, rfl, hrest⟩ := List.map_eq_cons_iff.1 hargs
    obtain ⟨q, qs, rfl, rfl, rfl⟩ := List.map_eq_cons_iff.1 hrest
    refine ⟨_, _, qs.map (ofSource .go source).spanText, rfl, rfl, by simp, ?_⟩
    intro t ht
    rw [← List.map_cons (f := (ofSource .go source).spanText)] at ht
    obtain ⟨p', hp', rfl⟩ := List.mem_map.1 ht
    exact hends p' (List.mem_cons_of_mem p hp')
  have hends : ∀ p ∈ spans ++ [⟨last, s.stop⟩],
      ∃ w, endMode .go ((ofSource .go source).spanText p) = .code w := by
    intro p hp
    obtain ⟨hi, hj, hij⟩ := hpieces p hp
    obtain ⟨-, t, -, w, -, -, -, hslice, hend, -, -⟩ := hi.exists_between hj hij
    exact ⟨w, (congrArg (endMode .go) hslice).trans hend⟩
  split
  · rename_i hblank
    rw [if_pos hblank] at h
    obtain ⟨first, second, others, hmap, ha, hrest, hmodes⟩ :=
      hsplit (fun p hp => hends p (List.mem_append_left _ hp)) h
    refine ⟨first, second, others, hmap, ha, hrest, hmodes, _, ?_,
      .inr ⟨(ofSource .go source).slice last s.stop, rfl, ?_⟩⟩
    · show (ofSource .go source).slice s.start s.stop = _
      rw [← htext, List.map_append, hmap, List.cons_append,
        List.intercalate_cons_of_ne_nil (by simp), List.append_assoc]
      rfl
    · obtain ⟨hi, hj, hij⟩ := hpieces ⟨last, s.stop⟩ (by simp)
      refine tokensFrom_of_allBlank rfl rfl ?_
      have := mask_slice hi hj hij
      unfold isBlank at hblank
      rwa [this] at hblank
  · rename_i hblank
    rw [if_neg hblank] at h
    obtain ⟨first, second, others, hmap, ha, hrest, hmodes⟩ := hsplit hends h
    refine ⟨first, second, others, hmap, ha, hrest, hmodes, _, ?_, .inl rfl⟩
    show (ofSource .go source).slice s.start s.stop = _
    rw [← htext, hmap, List.intercalate_cons_cons, List.append_assoc]
    rfl

/-- The arguments of a call behind the address of the result are read alike in the source and in the
batched method, but for a comma behind the last one, when all of them can be put on one line. That
line leaves nothing open. -/
theorem callArgs_of_flattens {primitives : List String} {f : FunctionSpan} {name : Span}
    {receiver : Receiver} {c : CallSite} {s : SyncMethod}
    (hf : f ∈ (ofSource .go source).functions)
    (hc : (ofSource .go source).callSite primitives f name = .ok c)
    (hs : (ofSource .go source).methodAt? receiver c = some s)
    (hflat : ∀ piece ∈ ((ofSource .go source).splitTopLevel c.args.start c.args.stop ',').tail,
      Flattens ((ofSource .go source).spanText piece)) :
    (∃ first behind, (ofSource .go source).spanText c.args = first ++ ',' :: behind ∧
      onOneLine first = '&' :: s.resultName.toList ∧
      (tokens behind = tokens s.callArgs.toList ∨
        tokens behind = tokens s.callArgs.toList ++ [.comma])) ∧
      '\n' ∉ s.callArgs.toList ∧ Closed s.callArgs.toList := by
  obtain ⟨params, hsite⟩ := callSite_eq_ok.1 hc
  have hcode := siteInCode hf hc
  obtain ⟨-, -, -, -, -, hresult, -, -, hargs⟩ := methodAt?_eq_some hs
  obtain ⟨b, rest, hrest⟩ := List.exists_cons_of_ne_nil hsite.rest_ne_nil
  have hsize : c.args.stop < (ofSource .go source).size :=
    Nat.lt_of_lt_of_le hcode.args_lt (Nat.le_trans (Nat.le_add_right _ _)
      (Nat.le_trans hcode.return_le (Nat.le_of_lt hcode.closed_lt)))
  obtain ⟨first, second, others, hpieces, hfirst, hothers, hends, behind, htext, hbehind⟩ :=
    arguments_spec hcode.args_start hcode.args_stop hcode.args_le hsize
      (hrest ▸ hsite.arguments_eq)
  have hone : ∀ t ∈ second :: others, settles t = true ∧ tokens (onOneLine t) = tokens t ∧
      settles (onOneLine t) = true ∧ '\n' ∉ onOneLine t := by
    intro t ht
    obtain ⟨w, hw⟩ := hends t ht
    have htail := congrArg List.tail hpieces
    rw [← List.map_tail, List.tail_cons] at htail
    rw [← htail] at ht
    obtain ⟨piece, hpiece, rfl⟩ := List.mem_map.1 ht
    have hflat := hflat piece hpiece
    exact ⟨settlesFrom_of_endModeFrom hflat.legible hw, hflat.onOneLine hw⟩
  have hlines : c.rest = (second :: others).map onOneLine := hrest.trans hothers
  have hsettles : ∀ t ∈ c.rest, settles t = true ∧ '\n' ∉ t := by
    rw [hlines]
    intro t ht
    obtain ⟨t', ht', rfl⟩ := List.mem_map.1 ht
    exact (hone t' ht').2.2
  have hread : tokens s.callArgs.toList =
      [GoToken.comma].intercalate ((second :: others).map tokens) := by
    have htokens : c.rest.map tokens = (second :: others).map tokens := by
      rw [hlines, List.map_map]
      exact List.map_congr_left fun t ht => (hone t ht).2.1
    have hjoin := @tokens_intercalate [' '] c.rest (by decide) fun t ht =>
      (hsettles t ((List.dropLast_sublist _).subset ht)).1
    rw [hargs, hjoin, htokens]
  refine ⟨⟨first, behind, htext, ?_, ?_⟩, ?_, ?_⟩
  · rw [← hfirst, hresult]
    exact String.toList_append
  · rcases hbehind with rfl | ⟨tail, rfl, hnone⟩
    · refine .inl ?_
      rw [hread]
      exact @tokens_intercalate [] _ rfl fun t ht =>
        (hone t ((List.dropLast_sublist _).subset ht)).1
    · refine .inr ?_
      have hjoin := @tokens_intercalate [] (second :: others ++ [tail]) rfl
        (by rw [List.dropLast_concat]; exact fun t ht => (hone t ht).1)
      rw [hread, hjoin, List.map_append, List.map_singleton, hnone]
      exact intercalate_concat_nil _ _ _
  · rw [hargs]
    exact not_mem_intercalate (by decide) fun t ht => (hsettles t ht).2
  · rw [hargs]
    exact closed_intercalate fun t ht => (hsettles t ht).1

/-- A parenthesis behind arguments that leave nothing open closes the call. -/
theorem Closed.mask_append_paren {a : List Char} (h : Closed a) (rest : List Char) :
    mask .go (a ++ ')' :: rest) = mask .go a ++ ')' :: mask .go rest := by
  rw [mask_append h fun _ => detached_cons (by decide) (by decide) _]
  exact congrArg _ (mask_cons (by decide) _)

end Masked

namespace ClientFile

/-- Of every method that is found in a client file, the arguments behind the address of the result
are read alike in the source and in the batched method, but for a comma behind the last one, when all
of them can be put on one line. That line leaves nothing open, so a parenthesis behind it closes the
call. -/
theorem callArgs_keep_tokens {options : ClientOptions} {source : String} {file : ClientFile}
    {k : Nat} {g : ClientFunction} {s : SyncMethod}
    (hfile : ClientFile.read? options source = some file) (hg : file.functions[k]? = some g)
    (hs : g.outcome = .found s) :
    ∃ f c, (Masked.ofSource .go source.toList).functions[k]? = some f ∧
      (Masked.ofSource .go source.toList).siteOf? options.primitives f = some c ∧
      ((∀ piece ∈ ((Masked.ofSource .go source.toList).splitTopLevel c.args.start
          c.args.stop ',').tail,
        Masked.Flattens ((Masked.ofSource .go source.toList).spanText piece)) →
      (∃ first behind,
        (Masked.ofSource .go source.toList).spanText c.args = first ++ ',' :: behind ∧
        Masked.onOneLine first = '&' :: s.resultName.toList ∧
        (Masked.tokens behind = Masked.tokens s.callArgs.toList ∨
          Masked.tokens behind = Masked.tokens s.callArgs.toList ++ [.comma])) ∧
      '\n' ∉ s.callArgs.toList ∧
      ∀ rest, Masked.mask .go (s.callArgs.toList ++ ')' :: rest) =
        Masked.mask .go s.callArgs.toList ++ ')' :: Masked.mask .go rest) := by
  obtain ⟨f, receiver, c, hf, hc, -, hmethod⟩ := exists_site hfile hg hs
  obtain ⟨-, name, -, -, hsite⟩ := Masked.siteOf?_eq_some hc
  refine ⟨f, c, hf, hc, fun hflat => ?_⟩
  obtain ⟨htokens, hline, hclosed⟩ :=
    Masked.callArgs_of_flattens (List.mem_of_getElem? hf) hsite hmethod hflat
  exact ⟨htokens, hline, hclosed.mask_append_paren⟩

/-- A method whose call spans lines, with a block comment and a comma behind the last argument. -/
def callOnLines : String :=
  "func (c *C) M() (y T, err error) \x7b\n\terr = c.CallRPC(&y, \"a\",\n\t\tf(x, /* why */\n" ++
  "\t\t\tnil),\n\t)\n\treturn\n\x7d\n"

theorem callArgs_keep_tokens_callOnLines :
    ∃ (file : ClientFile) (g : ClientFunction) (s : SyncMethod) (c : CallSite),
      ClientFile.read? ⟨["CallRPC"], none⟩ callOnLines = some file ∧
      file.functions[0]? = some g ∧ g.outcome = .found s ∧
      s.callArgs = "\"a\", f(x, /* why */ nil)" ∧
      ∃ first behind,
        (Masked.ofSource .go callOnLines.toList).spanText c.args = first ++ ',' :: behind ∧
        Masked.onOneLine first = '&' :: s.resultName.toList ∧
        (Masked.tokens behind = Masked.tokens s.callArgs.toList ∨
          Masked.tokens behind = Masked.tokens s.callArgs.toList ++ [.comma]) := by
  have hread : ((ClientFile.read? ⟨["CallRPC"], none⟩ callOnLines).bind
      (·.functions[0]?)).bind (·.outcome.found?) =
      some ⟨"c", "C", "M()", "y", .named "T", "", some "a", "\"a\", f(x, /* why */ nil)", ""⟩ := by
    decide +kernel
  have hflat : ∀ c ∈ ((Masked.ofSource .go callOnLines.toList).functions[0]?).bind
        ((Masked.ofSource .go callOnLines.toList).siteOf? ["CallRPC"]),
      ∀ piece ∈ ((Masked.ofSource .go callOnLines.toList).splitTopLevel c.args.start
        c.args.stop ',').tail,
        Masked.Flattens ((Masked.ofSource .go callOnLines.toList).spanText piece) := by
    decide +kernel
  obtain ⟨g, hg, hs⟩ := Option.bind_eq_some_iff.1 hread
  obtain ⟨file, hfile, hg⟩ := Option.bind_eq_some_iff.1 hg
  have hs := Masked.eq_found_of_found? hs
  obtain ⟨f, c, hf, hc, htokens⟩ := callArgs_keep_tokens hfile hg hs
  have hc : c ∈ ((Masked.ofSource .go callOnLines.toList).functions[0]?).bind
      ((Masked.ofSource .go callOnLines.toList).siteOf? ["CallRPC"]) :=
    Option.bind_eq_some_iff.2 ⟨f, hf, hc⟩
  exact ⟨file, g, _, c, hfile, hg, hs, rfl, (htokens (hflat c hc)).1⟩

/-- A method with a line comment between the arguments of its call. -/
def commentedCall : String :=
  "func (c *C) M() (y T, err error) \x7b\n\terr = c.CallRPC(&y, \"a\", // first\n" ++
  "\t\tx)\n\treturn\n\x7d\n"

/-- The arguments are not read alike in general, and the parenthesis of the call can be lost: a line
comment takes along the rest of the line. -/
theorem callArgs_lose_tokens :
    ∃ (file : ClientFile) (g : ClientFunction) (s : SyncMethod) (f : FunctionSpan) (c : CallSite),
      ClientFile.read? ⟨["CallRPC"], none⟩ commentedCall = some file ∧
      file.functions[0]? = some g ∧ g.outcome = .found s ∧
      (Masked.ofSource .go commentedCall.toList).functions[0]? = some f ∧
      (Masked.ofSource .go commentedCall.toList).siteOf? ["CallRPC"] f = some c ∧
      (Masked.ofSource .go commentedCall.toList).spanText c.args =
        "&y, \"a\", // first\n\t\tx".toList ∧
      s.callArgs = "\"a\", // first x" ∧
      Masked.tokens s.callArgs.toList = [.literal "\"a\"".toList, .comma] ∧
      Masked.tokens " \"a\", // first\n\t\tx".toList =
        [.literal "\"a\"".toList, .comma, .code "x".toList] ∧
      ')' ∉ Masked.mask .go (s.callArgs ++ ")").toList := by
  have hread : ((ClientFile.read? ⟨["CallRPC"], none⟩ commentedCall).bind
      (·.functions[0]?)).bind (·.outcome.found?) =
      some ⟨"c", "C", "M()", "y", .named "T", "", some "a", "\"a\", // first x", ""⟩ := by
    decide +kernel
  obtain ⟨g, hg, hs⟩ := Option.bind_eq_some_iff.1 hread
  obtain ⟨file, hfile, hg⟩ := Option.bind_eq_some_iff.1 hg
  have hs := Masked.eq_found_of_found? hs
  have hargs : (((Masked.ofSource .go commentedCall.toList).functions[0]?).bind
      ((Masked.ofSource .go commentedCall.toList).siteOf? ["CallRPC"])).map
        (fun c => (Masked.ofSource .go commentedCall.toList).spanText c.args) =
      some "&y, \"a\", // first\n\t\tx".toList := by
    decide +kernel
  obtain ⟨c, hc, hargs⟩ := Option.map_eq_some_iff.1 hargs
  obtain ⟨f, hf, hc⟩ := Option.bind_eq_some_iff.1 hc
  exact ⟨file, g, _, f, c, hfile, hg, hs, hf, hc, hargs, rfl, by decide +kernel, by decide +kernel,
    by decide +kernel⟩

end ClientFile

end RpcBindings
