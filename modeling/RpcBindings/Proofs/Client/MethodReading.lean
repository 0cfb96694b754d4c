import RpcBindings.Proofs.Client.Between
import RpcBindings.Proofs.Client.MethodText

/-!
Reading back the text of a synchronous method.

Every search of the reader meets a part of the text that it cannot go astray in, so it ends where the
text has what it looks for. Main statements: all its parts are read back
(`MethodText.readFunction?_text`), and it is a function where it begins a line
(`MethodText.holdsFunction_text`).
-/

namespace RpcBindings

open Masked

namespace MethodText

/-- The call site of a text whose body begins at an offset. -/
def site (t : MethodText) (signature : Span) (i : Nat) : CallSite where
  signature := signature
  resultName := .ofList t.result
  returnType := .ofText (.ofList t.resultType)
  bodyStart := i
  statement := i + (Text.byteLength t.lead + 1)
  dot := i + (Text.byteLength t.lead + 1 + Text.byteLength t.head)
  primitive := .ofList t.primitive
  args :=
    ⟨i + (Text.byteLength t.lead + 1 + Text.byteLength t.head + 1 + Text.byteLength t.primitive + 1),
      i + (Text.byteLength t.lead + 1 + Text.byteLength t.head + 1 + Text.byteLength t.primitive +
        1) + Text.byteLength ([','].intercalate t.pieces)⟩
  rest := t.args
  returnAt := i + (Text.byteLength t.lead + 1 + Text.byteLength t.head + 1 +
    Text.byteLength t.primitive + 1 + Text.byteLength ([','].intercalate t.pieces) + 1 +
    Text.byteLength t.trail + 1 + Text.byteLength t.indent)

/-- Where the body of a text begins, counted from its parameters. -/
def bodyOffset (t : MethodText) : Nat :=
  1 + Text.byteLength t.params + 1 + 1 + 1 + Text.byteLength ([','].intercalate t.results) + 1 + 1

variable {t : MethodText} {primitives : List String} {m : Masked} {i : Nat}

namespace Wf

/-! ## The head -/

theorem receiverAfter?_text (h : t.Wf primitives) {rest : List Char}
    (ht : m.TextFrom i (' ' :: '(' :: (t.receiverText ++ ')' :: rest))) :
    m.receiverAfter? i = some ⟨.ofList t.receiver, .ofList t.type,
      i + 1 + 1 + Text.byteLength t.receiverText + 1⟩ := by
  have hslice : m.slice (i + 1 + 1) (i + 1 + 1 + Text.byteLength t.receiverText) =
      t.receiverText :=
    ((ht.drop_char (by decide)).1.drop (a := ['('])).slice
  have hwords : Text.words t.receiverText = [t.receiver, '*' :: t.type] := by
    refine Text.words_pair h.receiver.not_isBlank ?_ h.receiver.ne_nil (List.cons_ne_nil _ _)
    intro c hc
    rcases List.mem_cons.1 hc with rfl | hc
    · decide
    · exact h.type.not_isBlank c hc
  have hstar : ('*' :: t.type).dropWhile (· == '*') = t.type := by
    obtain ⟨c, cs, heq, -⟩ := Go.exists_cons_of_isName h.type
    have hc : c ≠ '*' := h.type.ne_of_mem (heq ▸ List.mem_cons_self) (by decide)
    rw [heq, List.dropWhile_cons_of_pos (by decide), List.dropWhile_cons_of_neg (by simpa using hc)]
  unfold receiverAfter?
  rw [ht.parensAfter?_space h.plain_receiverText.regular]
  simp only [hslice, hwords, hstar]

/-- What is joined from two results is split into them. -/
theorem splitAtBlank?_result (h : t.Wf primitives) :
    Text.splitAtBlank? (Text.trim (t.result ++ ' ' :: t.resultType)) =
      some (t.result, Text.trimEnd t.resultType) := by
  obtain ⟨c, cs, heq, -⟩ := Go.exists_cons_of_isName h.result
  have hc := h.result.not_isBlank c (heq ▸ List.mem_cons_self)
  have htype : Text.allBlank (' ' :: t.resultType) = false := by
    refine Bool.eq_false_iff.2 fun hall => ?_
    have := (Text.allBlank_append (a := [' '])).1 hall
    rw [h.resultType_not_blank] at this
    exact Bool.false_ne_true this.2
  have htrim : Text.trimEnd (' ' :: t.resultType) = ' ' :: Text.trimEnd t.resultType :=
    Text.trimEnd_append_of_not_allBlank h.resultType_not_blank [' ']
  have hstart : Text.trimStart (t.result ++ ' ' :: t.resultType) =
      t.result ++ ' ' :: t.resultType := by
    rw [heq]
    exact @Text.trimStart_append [] c rfl hc _
  unfold Text.trim
  rw [hstart, Text.trimEnd_append_of_not_allBlank htype, htrim]
  exact Text.splitAtBlank?_append h.result.not_isBlank (by decide)

theorem ofText_trimEnd (type : List Char) :
    GoType.ofText (.ofList (Text.trimEnd type)) = GoType.ofText (.ofList type) := by
  unfold GoType.ofText
  rw [String.toList_ofList, String.toList_ofList, Text.trimEnd_trimEnd]

/-- The results of a text are read back. -/
theorem namedResult_text (h : t.Wf primitives) {rest : List Char} {stop : Nat}
    (ht : m.TextFrom i (' ' :: '(' :: ([','].intercalate t.results ++ ')' :: rest)))
    (hstop : i + 1 + 1 + Text.byteLength ([','].intercalate t.results) < stop) :
    m.namedResult i stop = .ok (.ofList t.result, .ofText (.ofList t.resultType)) := by
  have hopen := ht.drop_char (by decide)
  have hskip : m.skipBlank? i = some (i + 1) := by
    have := ht.2
    rw [mask_cons (by decide), mask_cons (by decide)] at this
    exact CodeFrom.skipBlank? (a := [' ']) this (by decide) (by decide)
  have hclosed := hopen.closer? (d := .paren) h.regular_results
  have hinner : m.TextFrom (i + 1 + 1) ([','].intercalate t.results ++ ')' :: rest) := by
    have := hopen.drop (a := ['(']) (solid_opener .paren).closed fun hslash =>
      absurd hslash (solid_opener .paren).no_slash
    exact this
  have hlast : Text.allBlank (mask .go (t.results.getLast (by simp [results]))) = false := by
    show Text.allBlank (mask .go " err error".toList) = false
    decide +kernel
  have hpieces := hinner.splitTopLevel_intercalate h.lacks_results
    (detached_closer .paren rest) hlast
  obtain ⟨value, later, hvalue, hvalueText, hlater⟩ := List.map_eq_cons_iff.1 hpieces
  obtain ⟨error, last, rfl, herrorText, hnil⟩ := List.map_eq_cons_iff.1 hlater
  obtain rfl := List.map_eq_nil_iff.1 hnil
  have htext := h.splitAtBlank?_result
  refine @namedResult_of_resultList m i stop (i + 1) _ _ _ value error
    ⟨hskip, hopen.hasChar (by decide) (by decide), hclosed, hstop, hvalue, ?_, ?_⟩
  · obtain ⟨blank, hsplit, hblank, hname⟩ := Text.splitAtBlank?_eq_some htext
    rw [hvalueText, String.toList_ofList]
    exact ⟨blank, _, hsplit, hblank, hname, (ofText_trimEnd _).symm⟩
  · rw [herrorText]
    decide

/-! ## The body -/

theorem plain_end (h : t.Wf primitives) : Plain ('\n' :: (t.indent ++ "return\n".toList)) :=
  (show Plain "\n".toList by unfold Plain; decide).append
    (h.plain_indent.append (show Plain "return\n".toList by unfold Plain; decide))

theorem mask_body (h : t.Wf primitives) : mask .go t.body =
    mask .go t.lead ++ '\n' :: (t.head ++ '.' :: (t.primitive ++ '(' ::
      (mask .go ([','].intercalate t.pieces) ++ ')' ::
        (mask .go t.trail ++ '\n' :: (t.indent ++ "return\n".toList))))) := by
  have hnewline (x : List Char) : Detached ('\n' :: x) := detached_cons (by decide) (by decide) x
  have hprimitive := h.isName_primitive.plain
  unfold body call tail
  rw [mask_append h.lead.closed fun _ => hnewline _, mask_cons (by decide),
    h.plain_head.solid.mask_append, h.plain_head.mask_eq, mask_cons (by decide),
    hprimitive.solid.mask_append, hprimitive.mask_eq]
  have hargs := mask_enclosed h.regular_args.closed .paren
    (t.trail ++ '\n' :: (t.indent ++ "return\n".toList))
  rw [show mask .go ('(' :: ([','].intercalate t.pieces ++ ')' :: _)) = _ from hargs,
    mask_append h.trail.closed fun _ => hnewline _, h.plain_end.mask_eq]
  rfl

theorem regular_body (h : t.Wf primitives) : Regular t.body := by
  have hnewline (x : List Char) : Detached ('\n' :: x) := detached_cons (by decide) (by decide) x
  have hcall : Plain ('\n' :: (t.head ++ '.' :: t.primitive)) :=
    (show Plain "\n".toList by unfold Plain; decide).append (h.plain_head.append
      ((show Plain ".".toList by unfold Plain; decide).append h.isName_primitive.plain))
  have htail : Regular (t.trail ++ '\n' :: (t.indent ++ "return\n".toList)) :=
    h.trail.append h.plain_end.regular fun _ => hnewline _
  have hargs : Regular ('(' :: ([','].intercalate t.pieces ++ [')']) ++
      (t.trail ++ '\n' :: (t.indent ++ "return\n".toList))) :=
    (h.regular_args.enclose .paren).append htail fun hslash =>
      absurd hslash (getLast?_enclosed .paren _)
  have hall := h.lead.append (hcall.regular.append hargs fun hslash =>
    absurd hslash hcall.solid.no_slash) fun _ => hnewline _
  have hbody : t.body = t.lead ++ ('\n' :: (t.head ++ '.' :: t.primitive) ++
      ('(' :: ([','].intercalate t.pieces ++ [')']) ++
        (t.trail ++ '\n' :: (t.indent ++ "return\n".toList)))) := by
    simp [body, call, tail]
  rw [hbody]
  exact hall

/-- The bytes of code before the call hold none of another statement. -/
theorem not_bordersStatement_head (h : t.Wf primitives) :
    ∀ b ∈ Text.bytes t.head, bordersStatement b = false := by
  have hname {x : List Char} (hx : Go.IsName x) : ∀ b ∈ Text.bytes x, bordersStatement b = false := by
    intro b hb
    refine Bool.eq_false_iff.2 fun hborder => ?_
    have hword := hx.isWordByte_bytes hb
    unfold bordersStatement at hborder
    simp only [Bool.or_eq_true, decide_eq_true_eq] at hborder
    rcases hborder with ((rfl | rfl) | rfl) | rfl <;> exact absurd hword (by decide)
  have hindent : ∀ b ∈ Text.bytes t.indent, bordersStatement b = false := by
    intro b hb
    obtain ⟨c, hc, hb⟩ := List.mem_flatMap.1 hb
    rcases h.indent c hc with rfl | rfl
    · obtain rfl := List.mem_singleton.1 hb
      decide
    · obtain rfl := List.mem_singleton.1 hb
      decide
  intro b hb
  unfold head at hb
  rw [Text.bytes_append, Text.bytes_append, Text.bytes_append,
    Text.bytes_cons_of_narrow (by decide), List.mem_append, List.mem_append, List.mem_append,
    List.mem_cons] at hb
  rcases hb with hb | hb | hb | rfl | hb
  · exact hindent b hb
  · revert b
    decide
  · exact hname h.receiver b hb
  · decide
  · exact hname h.field b hb

/-- In the statement before the call only its own dot stands, and no parenthesis follows it. -/
theorem no_call_in_head (h : t.Wf primitives) {q : String} (hq : Go.isIdentifier q = true)
    {k : Nat} (hk : k < (Text.bytes t.head).length) (rest : List UInt8) :
    (callPattern q).isPrefixOf ((Text.bytes t.head ++ '.'.toUInt8 :: rest).drop k) = false := by
  refine Bool.eq_false_iff.2 fun hcall => ?_
  obtain ⟨later, hlater⟩ := exists_of_callPattern hcall
  have hdot : (Text.bytes t.head)[k]? = some '.'.toUInt8 := by
    have happend : (Text.bytes t.head ++ '.'.toUInt8 :: rest)[k]? = (Text.bytes t.head)[k]? :=
      List.getElem?_append_left hk
    rw [← happend, ← List.head?_drop, hlater]
    rfl
  have hhead : Text.bytes t.head = Text.bytes (t.indent ++ ("err = ".toList ++ t.receiver)) ++
      '.'.toUInt8 :: Text.bytes t.field := by
    unfold head
    simp only [Text.bytes_append, Text.bytes_cons_of_narrow (show '.'.utf8Size = 1 by decide),
      List.append_assoc]
  have hbefore : '.'.toUInt8 ∉ Text.bytes (t.indent ++ ("err = ".toList ++ t.receiver)) := by
    rw [Text.bytes_append, Text.bytes_append, List.mem_append, List.mem_append]
    rintro (hmem | hmem | hmem)
    · obtain ⟨c, hc, hb⟩ := List.mem_flatMap.1 hmem
      rcases h.indent c hc with rfl | rfl <;> exact absurd hb (by decide)
    · exact absurd hmem (by decide)
    · exact h.receiver.not_mem_bytes (by decide) hmem
  rw [hhead] at hdot hlater
  generalize Text.bytes (t.indent ++ ("err = ".toList ++ t.receiver)) = a at hbefore hdot hlater
  rcases Nat.lt_trichotomy k a.length with hlt | rfl | hgt
  · rw [List.getElem?_append_left hlt] at hdot
    exact hbefore (List.mem_of_getElem? hdot)
  · rw [List.append_assoc, List.drop_left] at hlater
    have hword : ∀ z ∈ Text.bytes q.toList, isWordByte z = true :=
      fun z hz => (Go.isName_toList hq).isWordByte_bytes hz
    obtain ⟨-, hne⟩ := eq_of_word_append (fun z hz => h.field.isWordByte_bytes hz) hword
      (by decide) (by decide) (List.cons.inj hlater).2
    exact absurd hne (by decide)
  · obtain ⟨n, rfl⟩ : ∃ n, k = a.length + (n + 1) := ⟨k - a.length - 1, by omega⟩
    rw [List.getElem?_append_right (Nat.le_add_right _ _), Nat.add_sub_cancel_left,
      List.getElem?_cons_succ] at hdot
    exact h.field.not_mem_bytes (by decide) (List.mem_of_getElem? hdot)

theorem newline_not_mem_callPattern {q : String} (hq : Go.isIdentifier q = true) :
    '\n'.toUInt8 ∉ callPattern q := by
  rw [callPattern_eq, List.mem_cons, List.mem_append, List.mem_singleton]
  rintro (heq | hmem | heq)
  · exact absurd heq (by decide)
  · exact (Go.isName_toList hq).not_mem_bytes (by decide) hmem
  · exact absurd heq (by decide)

/-- No call of a primitive begins before the call of the text. -/
theorem earliest_call (h : t.Wf primitives) {q : String} (hq : q ∈ primitives) {k : Nat}
    (hk : k < (Text.bytes (mask .go t.lead)).length + 1 + (Text.bytes t.head).length)
    (rest : List UInt8) :
    (callPattern q).isPrefixOf ((Text.bytes (mask .go t.lead) ++ '\n'.toUInt8 ::
      (Text.bytes t.head ++ '.'.toUInt8 :: rest)).drop k) = false := by
  by_cases hlead : k ≤ (Text.bytes (mask .go t.lead)).length
  · refine Bool.eq_false_iff.2 fun hcall => ?_
    rw [List.drop_append_of_le_length hlead] at hcall
    have hinside := Text.isPrefixOf_of_not_mem hcall (newline_not_mem_callPattern (h.names q hq))
    obtain ⟨j, hj, -⟩ := Text.findBytes?_le hlead hinside
    have hnone := h.lead_calls q hq
    rw [show callOffset? _ q = some j from hj] at hnone
    simp at hnone
  · obtain ⟨n, rfl⟩ : ∃ n, k = (Text.bytes (mask .go t.lead)).length + (n + 1) :=
      ⟨k - (Text.bytes (mask .go t.lead)).length - 1, by omega⟩
    rw [List.drop_append, List.drop_eq_nil_of_le (Nat.le_add_right _ _), List.nil_append,
      Nat.add_sub_cancel_left, List.drop_succ_cons]
    exact h.no_call_in_head (h.names q hq) (by omega) rest

/-- The call of the text is the first one in its body. -/
theorem firstCall?_body (h : t.Wf primitives) :
    firstCall? (Text.bytes (mask .go t.body)) primitives =
      some (Text.byteLength t.lead + 1 + Text.byteLength t.head, .ofList t.primitive) := by
  have hbody : Text.bytes (mask .go t.body) = Text.bytes (mask .go t.lead) ++ '\n'.toUInt8 ::
      (Text.bytes t.head ++ '.'.toUInt8 :: (Text.bytes t.primitive ++ '('.toUInt8 ::
        Text.bytes (mask .go ([','].intercalate t.pieces) ++ ')' ::
          (mask .go t.trail ++ '\n' :: (t.indent ++ "return\n".toList))))) := by
    rw [h.mask_body]
    simp only [Text.bytes_append, Text.bytes_cons_of_narrow (show '.'.utf8Size = 1 by decide),
      Text.bytes_cons_of_narrow (show '\n'.utf8Size = 1 by decide),
      Text.bytes_cons_of_narrow (show '('.utf8Size = 1 by decide)]
  have hlen : Text.byteLength t.lead + 1 + Text.byteLength t.head =
      (Text.bytes (mask .go t.lead)).length + 1 + (Text.bytes t.head).length := by
    rw [Text.length_bytes, Text.length_bytes, byteLength_mask h.lead.closed]
  rw [hlen, hbody]
  refine firstCall?_of_earliest h.names h.primitive ?_ ?_ fun q hq k hk => h.earliest_call hq hk _
  · rw [List.length_append, List.length_cons, List.length_append, List.length_cons]
    omega
  · have hdrop : (Text.bytes (mask .go t.lead)).length + 1 + (Text.bytes t.head).length =
        (Text.bytes (mask .go t.lead) ++ '\n'.toUInt8 :: Text.bytes t.head).length := by
      rw [List.length_append, List.length_cons]
      omega
    rw [hdrop, ← List.cons_append, ← List.append_assoc, List.drop_left, callPattern_eq,
      String.toList_ofList]
    exact List.isPrefixOf_iff_prefix.2 ⟨_, by rw [List.cons_append, List.append_assoc]; rfl⟩

/-- The statement of the call begins on a line of its own. -/
theorem statementStart_body (h : t.Wf primitives) {rest : List Char}
    (ht : m.TextFrom i (t.body ++ '\x7d' :: rest)) :
    m.statementStart i (i + (Text.byteLength t.lead + 1 + Text.byteLength t.head)) =
      i + (Text.byteLength t.lead + 1) := by
  have hsplit : t.body ++ '\x7d' :: rest =
      (t.lead ++ '\n' :: t.head) ++ (t.call ++ '\x7d' :: rest) := by
    simp [body]
  have hclosed : Closed (t.lead ++ '\n' :: t.head) := by
    have hline : Plain ('\n' :: t.head) :=
      (show Plain "\n".toList by unfold Plain; decide).append h.plain_head
    exact h.lead.closed.append hline.solid.closed fun _ => detached_cons (by decide) (by decide) _
  have hdot : Detached (t.call ++ '\x7d' :: rest) := detached_cons (by decide) (by decide) _
  have hmask : mask .go (t.lead ++ '\n' :: t.head) = mask .go t.lead ++ '\n' :: t.head := by
    rw [mask_append h.lead.closed fun _ => detached_cons (by decide) (by decide) _,
      mask_cons (by decide), h.plain_head.mask_eq]
  rw [hsplit] at ht
  have hslice := ht.byteSlice hclosed fun _ => hdot
  rw [hmask, Text.byteLength_append, Text.byteLength_cons, Text.bytes_append,
    Text.bytes_cons_of_narrow (by decide)] at hslice
  unfold statementStart
  rw [show i + (Text.byteLength t.lead + 1 + Text.byteLength t.head) =
    i + (Text.byteLength t.lead + ('\n'.utf8Size + Text.byteLength t.head)) by
      rw [Nat.add_assoc]; rfl, hslice,
    Text.lengthThroughLast_append (by decide) _ h.not_bordersStatement_head, Text.length_bytes,
    byteLength_mask h.lead.closed]

theorem assignsErr_head (h : t.Wf primitives) : assignsErr t.head = true := by
  have hindent : Text.allBlank t.indent = true := by
    refine List.all_eq_true.2 fun c hc => ?_
    rcases h.indent c hc with rfl | rfl <;> decide
  refine assignsErr_iff.2 ⟨t.indent, [' '], '=' :: ' ' :: (t.receiver ++ '.' :: t.field), ?_, hindent,
    by decide, .inl ⟨_, rfl, by simp⟩⟩
  simp [head]

/-- The arguments of a text are read back. -/
theorem arguments_text (h : t.Wf primitives) {rest : List Char}
    (ht : m.TextFrom i ([','].intercalate t.pieces ++ ')' :: rest)) :
    m.arguments ⟨i, i + Text.byteLength ([','].intercalate t.pieces)⟩ =
      ('&' :: t.result) :: t.args := by
  have hne : t.args.map (' ' :: ·) ≠ [] := by simpa using h.args_ne_nil
  have hlast : Text.allBlank (mask .go (t.pieces.getLast (List.cons_ne_nil _ _))) = false := by
    unfold pieces
    rw [List.getLast_cons hne, List.getLast_map, mask_cons (by decide), Text.allBlank_space_cons]
    exact h.last_arg _ (List.getLast?_eq_some_getLast h.args_ne_nil)
  have hpieces : (m.splitTopLevel i (i + Text.byteLength ([','].intercalate t.pieces)) ',').map
      m.spanText = t.pieces :=
    ht.splitTopLevel_intercalate h.lacks_pieces (detached_closer .paren rest) hlast
  have hfirst : onOneLine ('&' :: t.result) = '&' :: t.result := by
    have hblank : ∀ c ∈ '&' :: t.result, Text.isBlank c = false := by
      intro c hc
      rcases List.mem_cons.1 hc with rfl | hc
      · decide
      · exact h.result.not_isBlank c hc
    refine onOneLine_eq (Text.trim_of_not_isBlank hblank) fun hmem => ?_
    exact absurd (hblank '\n' hmem) (by decide)
  have hrest : ∀ a ∈ t.args, onOneLine (' ' :: a) = a := by
    intro a ha
    obtain ⟨-, htrim, hnewline⟩ := h.args a ha
    refine onOneLine_eq ?_ hnewline
    unfold Text.trim at htrim ⊢
    exact htrim
  have hmap : t.pieces.map onOneLine = ('&' :: t.result) :: t.args := by
    have hargs : t.args.map (onOneLine ∘ (' ' :: ·)) = t.args :=
      (List.map_congr_left hrest).trans (List.map_id' t.args)
    unfold pieces
    rw [List.map_cons, hfirst, List.map_map, hargs]
  have hall := congrArg (List.map onOneLine) hpieces
  rw [List.map_map, hmap] at hall
  exact hall

/-- The last `return` of a text is read back. -/
theorem bareReturn?_text (h : t.Wf primitives) {rest : List Char} {body : Span}
    (hstart : body.start = i) (hstop : body.stop = i + Text.byteLength t.body)
    (ht : m.TextFrom i (t.body ++ '\x7d' :: rest)) :
    m.bareReturn? body = some (i + (Text.byteLength t.lead + 1 + Text.byteLength t.head + 1 +
      Text.byteLength t.primitive + 1 + Text.byteLength ([','].intercalate t.pieces) + 1 +
      Text.byteLength t.trail + 1 + Text.byteLength t.indent)) := by
  have hcode := ht.codeSlice h.regular_body.closed fun _ => detached_closer .brace rest
  rw [h.mask_body] at hcode
  refine bareReturn?_eq_some.2 ⟨mask .go t.lead ++ '\n' :: (t.head ++ '.' :: (t.primitive ++ '(' ::
      (mask .go ([','].intercalate t.pieces) ++ ')' :: (mask .go t.trail ++ '\n' :: t.indent)))),
    ['\n'], ?_, by decide, ?_, ?_⟩
  · rw [hstart, hstop, hcode]
    simp
  · have hlast : ('\n' :: t.indent).getLast?.all precedesStatement = true := by
      cases hindent : ('\n' :: t.indent).getLast? with
      | none => rfl
      | some c =>
        rcases List.mem_cons.1 (List.mem_of_getLast? hindent) with rfl | hc
        · decide
        · rcases h.indent c hc with rfl | rfl <;> decide
    have hne : ('\n' :: t.indent) ≠ [] := List.cons_ne_nil _ _
    simpa [List.getLast?_append, List.getLast?_cons] using hlast
  · rw [hstart]
    have hlead := byteLength_mask h.lead.closed
    have hargs := byteLength_mask h.regular_args.closed
    have htrail := byteLength_mask h.trail.closed
    simp only [Text.byteLength_append, Text.byteLength_cons, hlead, hargs, htrail,
      show '\n'.utf8Size = 1 by decide, show '.'.utf8Size = 1 by decide,
      show '('.utf8Size = 1 by decide, show ')'.utf8Size = 1 by decide]
    omega

/-- Behind the head of a text its body begins. -/
theorem textFrom_body (h : t.Wf primitives) {rest : List Char}
    (ht : m.TextFrom i (t.afterName ++ rest)) :
    m.TextFrom (i + 1 + Text.byteLength t.params + 1)
        (' ' :: '(' :: ([','].intercalate t.results ++ ')' :: ' ' :: '\x7b' ::
          (t.body ++ '\x7d' :: rest))) ∧
      m.TextFrom (i + t.bodyOffset) ('\x7b' :: (t.body ++ '\x7d' :: rest)) := by
  have hshape : t.afterName ++ rest = '(' :: (t.params ++ ')' :: ' ' :: '(' ::
      ([','].intercalate t.results ++ ')' :: ' ' :: '\x7b' :: (t.body ++ '\x7d' :: rest))) := by
    simp [afterName]
  rw [hshape] at ht
  have hparams := ht.drop_enclosed (d := .paren) h.params
  have hresults := (hparams.drop_char (by decide)).drop_enclosed (d := .paren) h.regular_results
  refine ⟨hparams, ?_⟩
  have hbrace := hresults.drop_char (by decide)
  rwa [show i + t.bodyOffset = i + 1 + Text.byteLength t.params + 1 + 1 + 1 +
    Text.byteLength ([','].intercalate t.results) + 1 + 1 by unfold bodyOffset; omega]

/-- Where the parts of the body stand. -/
theorem textFrom_call (h : t.Wf primitives) {rest : List Char}
    (ht : m.TextFrom i (t.body ++ '\x7d' :: rest)) :
    m.TextFrom (i + (Text.byteLength t.lead + 1)) (t.head ++ (t.call ++ '\x7d' :: rest)) ∧
      m.TextFrom (i + (Text.byteLength t.lead + 1 + Text.byteLength t.head + 1 +
        Text.byteLength t.primitive))
        ('(' :: ([','].intercalate t.pieces ++ (t.tail ++ '\x7d' :: rest))) ∧
      m.TextFrom (i + (Text.byteLength t.lead + 1 + Text.byteLength t.head + 1 +
        Text.byteLength t.primitive + 1))
        ([','].intercalate t.pieces ++ (t.tail ++ '\x7d' :: rest)) := by
  have hnewline (x : List Char) : Detached ('\n' :: x) := detached_cons (by decide) (by decide) x
  have hshape : t.body ++ '\x7d' :: rest =
      t.lead ++ '\n' :: (t.head ++ (t.call ++ '\x7d' :: rest)) := by
    simp [body]
  have hcallshape : t.call ++ '\x7d' :: rest = '.' :: (t.primitive ++ '(' ::
      ([','].intercalate t.pieces ++ (t.tail ++ '\x7d' :: rest))) := by
    simp [call]
  rw [hshape] at ht
  have hstatement := (ht.drop h.lead.closed fun _ => hnewline _).drop_char (by decide)
  have hdot := hstatement.drop_plain h.plain_head
  rw [hcallshape] at hdot
  have hopener := (hdot.drop_char (by decide)).drop_plain h.isName_primitive.plain
  have hargs := hopener.drop (a := ['(']) (solid_opener .paren).closed fun hslash =>
    absurd hslash (solid_opener .paren).no_slash
  have hargs : m.TextFrom (i + Text.byteLength t.lead + 1 + Text.byteLength t.head + 1 +
      Text.byteLength t.primitive + 1)
      ([','].intercalate t.pieces ++ (t.tail ++ '\x7d' :: rest)) := hargs
  exact ⟨hstatement, hopener.at_eq (by omega), hargs.at_eq (by omega)⟩

theorem byteLength_body (t : MethodText) : Text.byteLength t.body =
    Text.byteLength t.lead + 1 + Text.byteLength t.head + 1 + Text.byteLength t.primitive + 1 +
      Text.byteLength ([','].intercalate t.pieces) + 1 + Text.byteLength t.trail + 1 +
      Text.byteLength t.indent + 7 := by
  unfold body call tail
  simp only [Text.byteLength_append, Text.byteLength_cons, show '\n'.utf8Size = 1 by decide,
    show '.'.utf8Size = 1 by decide, show '('.utf8Size = 1 by decide,
    show ')'.utf8Size = 1 by decide, show Text.byteLength "return\n".toList = 7 by decide]
  omega

/-- The call site of a text is read back. -/
theorem callSite_text (h : t.Wf primitives) {rest : List Char} {f : FunctionSpan} {j : Nat}
    (ht : m.TextFrom i (t.afterName ++ rest)) (hopened : f.opened = i + t.bodyOffset)
    (hclosed : f.closed = f.opened + 1 + Text.byteLength t.body) :
    m.callSite primitives f ⟨j, i⟩ =
      .ok (t.site ⟨j, i + 1 + Text.byteLength t.params + 1⟩ (f.opened + 1)) := by
  obtain ⟨hresults, hbrace⟩ := h.textFrom_body ht
  rw [← hopened] at hbrace
  have hbody : m.TextFrom (f.opened + 1) (t.body ++ '\x7d' :: rest) :=
    hbrace.drop (a := ['\x7b']) (solid_opener .brace).closed fun hslash =>
      absurd hslash (solid_opener .brace).no_slash
  obtain ⟨hstatement, hopener, hargs⟩ := h.textFrom_call hbody
  have hlen := byteLength_body t
  have hsize : (String.ofList t.primitive).utf8ByteSize = Text.byteLength t.primitive := by
    rw [← Text.byteLength_toList, String.toList_ofList]
  have hparams : t.afterName ++ rest = '(' :: (t.params ++ ')' :: ' ' :: '(' ::
      ([','].intercalate t.results ++ ')' :: ' ' :: '\x7b' :: (t.body ++ '\x7d' :: rest))) := by
    simp [afterName]
  rw [hparams] at ht
  refine callSite_eq_ok.2 ⟨⟨i, i + 1 + Text.byteLength t.params⟩, ?_⟩
  exact
    { params_at := ht.parensAfter?_here h.params
      signature_eq := rfl
      results := by
        refine h.namedResult_text hresults ?_
        show i + 1 + Text.byteLength t.params + 1 + 1 + 1 + _ < f.opened
        rw [hopened]
        unfold bodyOffset
        omega
      body_eq := rfl
      first_call := by
        refine ⟨_, rfl, ?_⟩
        show firstCall? (m.byteSlice (f.opened + 1) f.closed) primitives = _
        rw [hclosed, hbody.byteSlice h.regular_body.closed fun _ => detached_closer .brace rest]
        exact h.firstCall?_body
      statement_eq := (h.statementStart_body hbody).symm
      assigns := by
        have hslice := hstatement.codeSlice h.plain_head.solid.closed fun hslash =>
          absurd hslash h.plain_head.solid.no_slash
        rw [h.plain_head.mask_eq, Nat.add_assoc (f.opened + 1)] at hslice
        have hassigns := h.assignsErr_head
        rw [← hslice] at hassigns
        exact hassigns
      args_start := by
        show f.opened + 1 + _ = f.opened + 1 + _ + 1 + (String.ofList t.primitive).utf8ByteSize + 1
        rw [hsize]
        omega
      args_closed := by
        have hclose := hopener.closer? (d := .paren) h.regular_args
        show m.closer? (f.opened + 1 + (Text.byteLength t.lead + 1 + Text.byteLength t.head) + 1 +
          (String.ofList t.primitive).utf8ByteSize) = some (f.opened + 1 + _ + _)
        rw [hsize, show f.opened + 1 + (Text.byteLength t.lead + 1 + Text.byteLength t.head) + 1 +
          Text.byteLength t.primitive = f.opened + 1 + (Text.byteLength t.lead + 1 +
            Text.byteLength t.head + 1 + Text.byteLength t.primitive) by omega, hclose]
        rfl
      arguments_eq := by
        refine (h.arguments_text hargs).trans ?_
        show _ = (("&" : String) ++ String.ofList t.result).toList :: t.args
        rw [String.toList_append, String.toList_ofList (l := t.result)]
        rfl
      rest_ne_nil := h.args_ne_nil
      return_at := h.bareReturn?_text rfl hclosed hbody
      args_before_return := by
        show f.opened + 1 + _ + _ < f.opened + 1 + _
        omega }

/-! ## The whole text -/

/-- Behind the parameter list of the keyword's function the text goes on. -/
theorem textFrom_afterName (h : t.Wf primitives) {rest : List Char}
    (ht : m.TextFrom i (t.text ++ rest)) :
    m.TextFrom (i + 4) (' ' :: '(' :: (t.receiverText ++ ')' :: ' ' :: (t.name ++
        (t.afterName ++ rest)))) ∧
      m.TextFrom (i + 4 + 1 + 1 + Text.byteLength t.receiverText + 1)
        (' ' :: (t.name ++ (t.afterName ++ rest))) ∧
      m.TextFrom (i + 4 + 1 + 1 + Text.byteLength t.receiverText + 1 + 1 + Text.byteLength t.name)
        (t.afterName ++ rest) := by
  have hshape : t.text ++ rest = "func".toList ++ ' ' :: '(' :: (t.receiverText ++ ')' :: ' ' ::
      (t.name ++ (t.afterName ++ rest))) := by
    simp [text]
  rw [hshape] at ht
  have hhead := ht.drop_plain (show Plain "func".toList by unfold Plain; decide)
  have hreceiver := (hhead.drop_char (by decide)).drop_enclosed (d := .paren)
    h.plain_receiverText.regular
  exact ⟨hhead, hreceiver, (hreceiver.drop_char (by decide)).drop_plain h.name.plain⟩

end Wf

/-- The method that is read from a text, when its statements are laid out. -/
def method (t : MethodText) (before after : List Char) : SyncMethod where
  receiverName := .ofList t.receiver
  receiverType := .ofList t.type
  signature := .ofList (t.name ++ '(' :: (t.params ++ [')']))
  resultName := .ofList t.result
  returnType := .ofText (.ofList t.resultType)
  before := .ofList before
  wireName? := (t.args.head?.bind Text.unquote?).map String.ofList
  callArgs := .ofList ([',', ' '].intercalate t.args)
  after := .ofList after

/-- The function that a text is, when it begins at an offset. -/
def span (t : MethodText) (i : Nat) : FunctionSpan where
  start := i
  opened := i + 4 + 1 + 1 + Text.byteLength t.receiverText + 1 + 1 + Text.byteLength t.name +
    t.bodyOffset
  closed := i + 4 + 1 + 1 + Text.byteLength t.receiverText + 1 + 1 + Text.byteLength t.name +
    t.bodyOffset + 1 + Text.byteLength t.body

/-- The name and the parameters of a text. -/
theorem slice_signature {rest : List Char} (ht : m.SourceFrom i (t.name ++ (t.afterName ++ rest))) :
    m.slice i (i + Text.byteLength t.name + 1 + Text.byteLength t.params + 1) =
      t.name ++ '(' :: (t.params ++ [')']) := by
  have hshape : t.name ++ (t.afterName ++ rest) = t.name ++ '(' :: (t.params ++ [')']) ++
      (' ' :: '(' :: ([','].intercalate t.results ++ ')' :: ' ' :: '\x7b' ::
        (t.body ++ '\x7d' :: rest))) := by
    simp [afterName]
  have hlen : Text.byteLength (t.name ++ '(' :: (t.params ++ [')'])) =
      Text.byteLength t.name + 1 + Text.byteLength t.params + 1 := by
    simp only [Text.byteLength_append, Text.byteLength_cons, Text.byteLength_nil,
      show '('.utf8Size = 1 by decide, show ')'.utf8Size = 1 by decide]
    omega
  rw [hshape] at ht
  have := ht.slice
  rwa [hlen, show i + (Text.byteLength t.name + 1 + Text.byteLength t.params + 1) =
    i + Text.byteLength t.name + 1 + Text.byteLength t.params + 1 by omega] at this

/-- The statements around the call of a text. -/
theorem slice_statements (s : Span) {rest : List Char}
    (ht : m.SourceFrom i (t.body ++ '\x7d' :: rest)) :
    m.slice (t.site s i).bodyStart (t.site s i).statement = t.lead ++ ['\n'] ∧
      m.slice ((t.site s i).args.stop + 1) (t.site s i).returnAt =
        t.trail ++ '\n' :: t.indent := by
  constructor
  · have hshape : t.body ++ '\x7d' :: rest =
        t.lead ++ ['\n'] ++ (t.head ++ (t.call ++ '\x7d' :: rest)) := by
      simp [body]
    rw [hshape] at ht
    have := ht.slice
    rw [Text.byteLength_append] at this
    exact this
  · have hshape : t.body ++ '\x7d' :: rest =
        t.lead ++ '\n' :: (t.head ++ '.' :: (t.primitive ++ '(' ::
          ([','].intercalate t.pieces ++ [')']))) ++
        (t.trail ++ '\n' :: t.indent ++ ("return\n".toList ++ '\x7d' :: rest)) := by
      simp [body, call, tail]
    have hbefore : Text.byteLength (t.lead ++ '\n' :: (t.head ++ '.' :: (t.primitive ++ '(' ::
        ([','].intercalate t.pieces ++ [')'])))) = Text.byteLength t.lead + 1 +
          Text.byteLength t.head + 1 + Text.byteLength t.primitive + 1 +
          Text.byteLength ([','].intercalate t.pieces) + 1 := by
      simp only [Text.byteLength_append, Text.byteLength_cons, Text.byteLength_nil,
        show '\n'.utf8Size = 1 by decide, show '.'.utf8Size = 1 by decide,
        show '('.utf8Size = 1 by decide, show ')'.utf8Size = 1 by decide]
      omega
    have htrail : Text.byteLength (t.trail ++ '\n' :: t.indent) =
        Text.byteLength t.trail + 1 + Text.byteLength t.indent := by
      rw [Text.byteLength_append, Text.byteLength_cons, show '\n'.utf8Size = 1 by decide]
      omega
    rw [hshape] at ht
    have := ht.drop.slice
    rw [hbefore, htrail] at this
    rw [← this]
    show m.slice (i + _ + _ + 1) (i + _) = _
    refine congrArg (fun n => m.slice n _) ?_ |>.trans (congrArg (m.slice _) ?_)
    · omega
    · omega

/-- What stands around the call of a text is laid out anew. -/
theorem methodAt?_text {rest before after : List Char} {receiver : Receiver} {j : Nat}
    (hname : receiver.name = .ofList t.receiver) (htype : receiver.type = .ofList t.type)
    (hsource : m.SourceFrom i (t.name ++ (t.afterName ++ rest)))
    (hbody : m.SourceFrom j (t.body ++ '\x7d' :: rest))
    (hbefore : Client.keptStatements? (t.lead ++ ['\n']) = some before)
    (hafter : Client.keptStatements? (afterCall (t.trail ++ '\n' :: t.indent)) = some after) :
    m.methodAt? receiver (t.site ⟨i, i + Text.byteLength t.name + 1 +
      Text.byteLength t.params + 1⟩ j) = some (t.method before after) := by
  obtain ⟨hlead, htrail⟩ := slice_statements ⟨i, i + Text.byteLength t.name + 1 +
      Text.byteLength t.params + 1⟩ hbody
  unfold methodAt?
  rw [hlead, htrail, hbefore, hafter, hname, htype]
  show some _ = some _
  unfold spanText
  rw [show (t.site ⟨i, i + Text.byteLength t.name + 1 + Text.byteLength t.params + 1⟩ j).signature =
    ⟨i, i + Text.byteLength t.name + 1 + Text.byteLength t.params + 1⟩ from rfl]
  simp only [slice_signature hsource]
  rfl

/-- Wherever the text of a synchronous method stands in code, its parts are read back. -/
theorem readFunction?_text (h : t.Wf primitives) {rest before after : List Char}
    (ht : m.TextFrom i (t.text ++ rest))
    (hbefore : Client.keptStatements? (t.lead ++ ['\n']) = some before)
    (hafter : Client.keptStatements? (afterCall (t.trail ++ '\n' :: t.indent)) = some after) :
    m.readFunction? primitives (t.span i) = some (.found (t.method before after)) := by
  obtain ⟨hhead, hname, hrest⟩ := h.textFrom_afterName ht
  have hreceiver := h.receiverAfter?_text hhead
  obtain ⟨-, hbrace⟩ := h.textFrom_body hrest
  have hparams : t.afterName ++ rest = '(' :: (t.params ++ ')' :: ' ' :: '(' ::
      ([','].intercalate t.results ++ ')' :: ' ' :: '\x7b' :: (t.body ++ '\x7d' :: rest))) := by
    simp [afterName]
  have hnameAt := hname
  rw [hparams] at hnameAt
  have hnamed := TextFrom.nameAfter?_name h.name hnameAt
  have hsite := h.callSite_text (f := t.span i) hrest rfl rfl
    (j := i + 4 + 1 + 1 + Text.byteLength t.receiverText + 1 + 1)
  have hmethod : m.methodAt? ⟨.ofList t.receiver, .ofList t.type,
      i + 4 + 1 + 1 + Text.byteLength t.receiverText + 1⟩
      (t.site ⟨i + 4 + 1 + 1 + Text.byteLength t.receiverText + 1 + 1,
        i + 4 + 1 + 1 + Text.byteLength t.receiverText + 1 + 1 + Text.byteLength t.name + 1 +
          Text.byteLength t.params + 1⟩ ((t.span i).opened + 1)) = some (t.method before after) := by
    refine methodAt?_text rfl rfl (hname.drop_char (by decide)).1 ?_ hbefore hafter
    exact (hbrace.drop (a := ['\x7b']) (solid_opener .brace).closed fun hslash =>
      absurd hslash (solid_opener .brace).no_slash).1
  unfold readFunction?
  rw [show (t.span i).head = i + 4 from rfl, hreceiver]
  simp only [hnamed]
  rw [hsite]
  simp only [hmethod, Option.map_some]

/-! ## The function of a text -/

/-- What stands between the keyword and the brace of the body. -/
def headText (t : MethodText) : List Char :=
  [' '] ++ ('(' :: (t.receiverText ++ [')']) ++ (' ' :: t.name ++
    ('(' :: (t.params ++ [')']) ++ ([' '] ++ ('(' :: ([','].intercalate t.results ++ [')']) ++
      [' '])))))

theorem text_eq (t : MethodText) (rest : List Char) :
    t.text ++ rest =
      "func".toList ++ (t.headText ++ '\x7b' :: (t.body ++ '\x7d' :: rest)) := by
  simp [text, headText, afterName]

theorem lacks_headText (h : t.Wf primitives) : Lacks '\x7b' t.headText := by
  have hspace : Lacks '\x7b' [' '] := Plain.lacks (by unfold Plain; decide) (by decide)
  have hname : Lacks '\x7b' (' ' :: t.name) := by
    refine hspace.append (h.name.plain.lacks (h.name.not_mem_bytes (by decide))) fun hslash => ?_
    exact absurd hslash (by decide)
  have hnameSolid : (' ' :: t.name).getLast? ≠ some '/' := by
    have hplain : Plain (' ' :: t.name) :=
      (show Plain " ".toList by unfold Plain; decide).append h.name.plain
    exact hplain.solid.no_slash
  have henclosed {a : List Char} (ha : Regular a) : Lacks '\x7b' ('(' :: (a ++ [')'])) :=
    ha.lacks_enclosed (d := .paren) (by decide)
  have hslash (a : List Char) : ('(' :: (a ++ [')'])).getLast? ≠ some '/' :=
    getLast?_enclosed .paren a
  unfold headText
  refine hspace.append ((henclosed h.plain_receiverText.regular).append (hname.append
    ((henclosed h.params).append (hspace.append ((henclosed h.regular_results).append hspace
      ?_) ?_) ?_) ?_) ?_) ?_
  · exact fun h => absurd h (hslash _)
  · exact fun h => absurd h (by decide)
  · exact fun h => absurd h (hslash _)
  · exact fun h => absurd h hnameSolid
  · exact fun h => absurd h (hslash _)
  · exact fun h => absurd h (by decide)

theorem opened_span (t : MethodText) (i : Nat) :
    (t.span i).opened = i + 4 + Text.byteLength t.headText := by
  unfold span headText bodyOffset
  simp only [Text.byteLength_append, Text.byteLength_cons, Text.byteLength_nil,
    show '('.utf8Size = 1 by decide, show ')'.utf8Size = 1 by decide,
    show ' '.utf8Size = 1 by decide]
  omega

end MethodText

namespace Masked

/-- A brace belongs to no type that is written out when the last word before it, behind a character
that stands in neither keyword, does not end with one. -/
theorem opensType_of_codeFrom {m : Masked} {i : Nat} {c : Char} {t rest : List Char}
    (h : m.CodeFrom i (c :: (t ++ ' ' :: rest))) (hc : c.utf8Size = 1)
    (hwords : c ∉ "struct".toList ∧ c ∉ "interface".toList) (hstruct : ¬"struct".toList <:+ t)
    (hinterface : ¬"interface".toList <:+ t)
    (hlast : ∃ init d, c :: t = init ++ [d] ∧ Text.isBlank d = false) :
    m.opensType (i + 1 + Text.byteLength t + 1) = false := by
  obtain ⟨before, hcode, rfl⟩ := h
  have hslice : m.codeSlice 0 (Text.byteLength before + 1 + Text.byteLength t + 1) =
      before ++ c :: t ++ [' '] := by
    have hstart : m.CodeFrom 0 (before ++ c :: t ++ [' '] ++ rest) := ⟨[], by rw [hcode]; simp, rfl⟩
    have hlen : Text.byteLength (before ++ c :: t ++ [' ']) =
        Text.byteLength before + 1 + Text.byteLength t + 1 := by
      simp only [Text.byteLength_append, Text.byteLength_cons, Text.byteLength_nil, hc,
        show ' '.utf8Size = 1 by decide]
      omega
    have := hstart.codeSlice
    rwa [hlen, Nat.zero_add] at this
  have htrim : Text.trimEnd (before ++ c :: t ++ [' ']) = before ++ c :: t := by
    obtain ⟨init, d, heq, hd⟩ := hlast
    have := @Text.trimEnd_append [' '] d (by decide) hd (before ++ init)
    rw [heq, ← List.append_assoc, List.append_assoc]
    exact this
  have hsuffix {word : List Char} (hmem : c ∉ word) (hword : ¬word <:+ t) :
      word.isSuffixOf (before ++ c :: t) = false := by
    refine Bool.eq_false_iff.2 fun hs => ?_
    have hs := List.isSuffixOf_iff_suffix.1 hs
    rcases List.suffix_or_suffix_of_suffix hs (List.suffix_append before (c :: t)) with h | h
    · rcases List.suffix_cons_iff.1 h with rfl | h
      · exact hmem List.mem_cons_self
      · exact hword h
    · exact hmem (h.subset List.mem_cons_self)
  unfold opensType
  rw [hslice, htrim]
  show (_ || _) = false
  rw [hsuffix hwords.1 hstruct, hsuffix hwords.2 hinterface]
  rfl

end Masked

namespace MethodText

variable {t : MethodText} {primitives : List String} {m : Masked} {i : Nat}

theorem regular_text (h : t.Wf primitives) : Regular t.text := by
  have hfunc : Plain "func".toList := by unfold Plain; decide
  have hbody := h.regular_body.enclose .brace
  have htext : t.text = "func".toList ++ (t.headText ++ ('\x7b' :: (t.body ++ ['\x7d']))) := by
    have := text_eq t []
    rwa [List.append_nil] at this
  rw [htext]
  refine hfunc.regular.append ((lacks_headText h).toRegular.append hbody fun _ => ?_) fun hslash => ?_
  · exact detached_cons (by decide) (by decide) _
  · exact absurd hslash hfunc.solid.no_slash

theorem closed_span (t : MethodText) (i : Nat) :
    (t.span i).closed + 1 = i + Text.byteLength t.text := by
  have htext := congrArg Text.byteLength (text_eq t [])
  have hclosed : (t.span i).closed = (t.span i).opened + 1 + Text.byteLength t.body := rfl
  simp only [Text.byteLength_append, Text.byteLength_cons, Text.byteLength_nil,
    show '\x7b'.utf8Size = 1 by decide, show '\x7d'.utf8Size = 1 by decide,
    show Text.byteLength "func".toList = 4 by decide] at htext
  rw [hclosed, opened_span]
  omega

/-- A text that begins a line is a function. -/
theorem holdsFunction_text (h : t.Wf primitives) {rest : List Char}
    (ht : m.TextFrom i (t.text ++ rest)) (hstart : m.IsLineStart i) :
    m.HoldsFunction (t.span i) := by
  have hclosed : (t.span i).closed = (t.span i).opened + 1 + Text.byteLength t.body := rfl
  have htype : m.opensType (i + 4 + Text.byteLength t.headText) = false := by
    obtain ⟨-, -, hrest⟩ := Wf.textFrom_afterName h ht
    obtain ⟨hresults, -⟩ := Wf.textFrom_body h hrest
    have hinner := (hresults.drop_char (by decide)).drop (a := ['(']) (solid_opener .paren).closed
      fun hslash => absurd hslash (solid_opener .paren).no_slash
    have hclose := (hinner.drop h.regular_results.closed fun _ => detached_closer .paren _).2
    rw [mask_cons (by decide), mask_cons (by decide)] at hclose
    have := @opensType_of_codeFrom m _ ')' [] _ hclose (by decide) (by decide) (by decide)
      (by decide) ⟨[], ')', rfl, by decide⟩
    rwa [← opened_span, show (t.span i).opened = i + 4 + 1 + 1 + Text.byteLength t.receiverText + 1 +
      1 + Text.byteLength t.name + 1 + Text.byteLength t.params + 1 + 1 + Text.byteLength ['('] +
      Text.byteLength ([','].intercalate t.results) + 1 + Text.byteLength [] + 1 by
        show _ + t.bodyOffset = _ + 1 + _ + 1 + _ + 1 + _ + 1 + 0 + 1
        unfold bodyOffset
        omega]
  rw [text_eq, ← List.append_assoc] at ht
  have := TextFrom.holdsFunction ht hstart (lacks_headText h) h.regular_body htype
  have hspan : t.span i = ⟨i, i + 4 + Text.byteLength t.headText,
      i + 4 + Text.byteLength t.headText + 1 + Text.byteLength t.body⟩ := by
    rw [← opened_span, ← hclosed]
    rfl
  rw [hspan]
  exact this

end MethodText

end RpcBindings
