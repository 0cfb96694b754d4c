import RpcBindings.Proofs.Client.Arguments
import RpcBindings.Proofs.Client.ErrorBlock
import RpcBindings.Proofs.Client.KeptStatements
import RpcBindings.Proofs.Go.Batch
import RpcBindings.Proofs.Masked.Splitting

/-!
Delimiters in the batched form of a method that is found in a client file.

In a well-nested file the parts of a method are well nested, and the statements after the call close
what those before it open. Main statement: so its batched form is well nested, when the text before
the call in its statement is, error blocks are whole lines and the arguments can be put on one line
(`wellNested_batchText`). A call inside of another call is not batched well
(`not_wellNested_batchText`).
-/

namespace RpcBindings

namespace Masked

/-! ## The head -/

section Head

variable {source : List Char} {i j : Nat}

/-- The scan stands in code where a word begins. -/
theorem inCode_of_isWordByte {b : UInt8} (h : (ofSource .go source).bytes[i]? = some b)
    (hb : isWordByte b = true) (hlast : i + 1 < (ofSource .go source).size) :
    (ofSource .go source).InCode i := by
  obtain ⟨-, d, -, -, -, hd, rfl⟩ := Text.exists_split_of_ascii h (lt_of_isWordByte hb).1
  have hcode : isCodeChar d = true := by
    unfold isCodeChar
    simp only [Bool.and_eq_true, bne_iff_ne, beq_iff_eq]
    exact ⟨⟨⟨⟨⟨hd, Go.ne_of_isWordByte hb (by decide)⟩, Go.ne_of_isWordByte hb (by decide)⟩,
      Go.ne_of_isWordByte hb (by decide)⟩, Go.ne_of_isWordByte hb (by decide)⟩,
      Go.ne_of_isWordByte hb (by decide)⟩
  exact (inCode_of_hasChar (hasChar_iff.2 h) hcode hlast).1

/-- A name holds bytes of words only. -/
theorem isWordByte_of_mem_identAt? {m : Masked} {s : Span} (h : m.identAt? i = some s) {b : UInt8}
    (hb : b ∈ m.byteSlice s.start s.stop) : isWordByte b = true := by
  unfold identAt? at h
  split at h
  · cases h
  · rename_i b' bs hdrop
    obtain ⟨hstart, hs⟩ := Option.ite_none_right_eq_some.1 h
    obtain rfl := Option.some.inj hs
    have hslice : m.byteSlice i (i + 1 + (bs.takeWhile isWordByte).length) =
        b' :: bs.takeWhile isWordByte := by
      have hprefix : b' :: bs.takeWhile isWordByte <+: m.bytes.drop i := by
        rw [hdrop, List.prefix_cons_inj]
        exact List.takeWhile_prefix isWordByte
      rw [Nat.add_assoc, Nat.add_comm 1]
      exact byteSlice_of_isPrefixOf (List.isPrefixOf_iff_prefix.2 hprefix)
    rw [hslice] at hb
    rcases List.mem_cons.1 hb with rfl | hb
    · exact isWordByte_of_isWordStart hstart
    · exact List.all_eq_true.1 List.all_takeWhile b hb

theorem wellNested_of_identAt? {m : Masked} {s : Span} (h : m.identAt? i = some s) :
    WellNested (m.byteSlice s.start s.stop) :=
  wellNested_of_all_isPlain (List.all_eq_true.2 fun _ hb =>
    isPlain_of_isWordByte (isWordByte_of_mem_identAt? h hb))

/-- Between two offsets in code the bytes of the masked copy are those of the mask. -/
theorem bytes_mask_slice (hi : (ofSource .go source).InCode i) (hj : (ofSource .go source).InCode j)
    (hij : i ≤ j) : Text.bytes (mask .go ((ofSource .go source).slice i j)) =
      (ofSource .go source).byteSlice i j := by
  rw [← mask_slice hi hj hij, bytes_codeSlice hi.cutsAt hj.cutsAt hij]

/-- What stands between the parentheses of a well-nested source is masked on its own, and well
nested. -/
theorem inCode_enclosed (hnested : WellNested (ofSource .go source).bytes)
    (hopens : (ofSource .go source).hasChar i '(' = true)
    (hcloses : (ofSource .go source).closer? i = some j) (hlast : j + 1 < (ofSource .go source).size) :
    (ofSource .go source).InCode (i + 1) ∧ (ofSource .go source).InCode j ∧
      (ofSource .go source).InCode (j + 1) ∧
      WellNested (Text.bytes (mask .go ((ofSource .go source).slice (i + 1) j))) := by
  have hlt := (lt_of_closer? hcloses).1
  have hstart := (inCode_of_hasChar hopens (by decide) (by omega)).2
  obtain ⟨hstop, hend⟩ :=
    inCode_of_hasChar (hasChar_closer (d := .paren) hopens hcloses) (by decide) hlast
  refine ⟨hstart, hstop, hend, ?_⟩
  rw [bytes_mask_slice hstart hstop hlt]
  exact wellNested_of_closer? hnested hcloses

variable {primitives : List String} {f : FunctionSpan} {p : MethodParts} {s : SyncMethod}

/-- The scan stands in code where the parts of the signature begin and end. -/
theorem inCode_signature (h : Segmented (ofSource .go source) primitives f p s) :
    (ofSource .go source).InCode p.name.start ∧ (ofSource .go source).InCode p.params.start ∧
      (ofSource .go source).InCode (p.params.start + 1) ∧ (ofSource .go source).InCode p.params.stop ∧
      (ofSource .go source).InCode (p.params.stop + 1) := by
  have horder := h.in_order
  obtain ⟨-, -, ⟨b, hb, hword⟩, -⟩ := identAt?_eq_some h.name_eq
  have hname := inCode_of_isWordByte hb (isWordByte_of_isWordStart hword) (by omega)
  obtain ⟨hopen, hstart⟩ := inCode_of_hasChar h.params_opens (by decide) (by omega)
  obtain ⟨hstop, hend⟩ := inCode_of_hasChar
    (hasChar_closer (d := .paren) h.params_opens h.params_closes) (by decide) (by omega)
  exact ⟨hname, hopen, hstart, hstop, hend⟩

/-- The signature closes what it opens. -/
theorem leads_signature (hnested : WellNested (ofSource .go source).bytes)
    (h : Segmented (ofSource .go source) primitives f p s)
    (hlegible : legible s.signature.toList = true) : Leads [] s.signature.toList [] := by
  have horder := h.in_order
  obtain ⟨hstart, -, -, hstop, hend⟩ := inCode_signature h
  have hle : p.name.start ≤ p.params.stop := by omega
  have hcloser := hasChar_closer (d := .paren) h.params_opens h.params_closes
  rw [h.signature_eq] at hlegible ⊢
  refine ⟨⟨closed_of_settles (settles_slice hstart hend (by omega) hlegible), ?_⟩, ?_⟩
  · rw [slice_append hstart.cutsAt hstop.cutsAt hend.cutsAt hle (Nat.le_succ _),
      slice_of_hasChar hcloser (by decide) (by decide),
      List.getLast?_append_of_ne_nil _ (List.cons_ne_nil _ _)]
    exact (solid_closer .paren).no_slash
  · have hcuts := h.boundaries
    simp only [MethodParts.cuts, List.forall_mem_cons] at hcuts
    obtain ⟨-, -, -, -, -, hname, hopen, -⟩ := hcuts
    have hblank := wellNested_of_isBlank hname hopen (by omega) h.params_blank
    have hlist := wellNested_enclosed (d := .paren) hnested h.params_opens h.params_closes
    rw [bytes_mask_slice hstart hend (by omega),
      byteSlice_append (show p.name.start ≤ p.name.stop by omega) (by omega),
      byteSlice_append (show p.name.stop ≤ p.params.start by omega) (by omega)]
    exact (wellNested_of_identAt? h.name_eq).append (hblank.append hlist)

/-- The receiver's type opens and closes what its list does. -/
theorem level_receiverType (hnested : WellNested (ofSource .go source).bytes)
    (h : Segmented (ofSource .go source) primitives f p s)
    (hname : Go.IsName s.receiverName.toList)
    (hbare : s.receiverType.toList.all isBareChar = true) : Level s.receiverType.toList := by
  have horder := h.in_order
  obtain ⟨-, -, -, hlist⟩ := inCode_enclosed hnested h.receiver_opens h.receiver_closes (by omega)
  obtain ⟨type, hwords, htype⟩ := h.receiver_words
  generalize (ofSource .go source).slice (p.receiver.start + 1) p.receiver.stop = text at *
  have hstars : Plain (type.takeWhile (· == '*')) := List.all_eq_true.2 fun c hc => by
    have hstar : (c == '*') = true := List.all_eq_true.1 (List.all_takeWhile (p := (· == '*'))) c hc
    rw [beq_iff_eq.1 hstar]
    decide
  have hink : Text.ink text = s.receiverName.toList ++
      (type.takeWhile (· == '*') ++ s.receiverType.toList) := by
    rw [← Text.flatten_words, hwords, htype, List.takeWhile_append_dropWhile]
    simp
  have htext : text.all isBareChar = true := by
    rw [← all_isBareChar_ink, hink, List.all_append, List.all_append, hname.plain.all_isBareChar,
      hstars.all_isBareChar, hbare]
    rfl
  have hlevel := level_of_mask htext hlist
  rw [← level_ink, hink] at hlevel
  exact (level_append hstars).1 ((level_append hname.plain).1 hlevel)

/-- The type of the result opens and closes what its piece of the result list does. -/
theorem level_returnType (hnested : WellNested (ofSource .go source).bytes)
    (h : Segmented (ofSource .go source) primitives f p s) (hname : Go.IsName s.resultName.toList)
    (hbare : s.returnType.text.toList.all isBareChar = true) : Level s.returnType.text.toList := by
  have horder := h.in_order
  obtain ⟨value, error, hresults⟩ := h.results
  have hlt := lt_of_closer? hresults.closes
  obtain ⟨hstart, hstop, -⟩ := inCode_enclosed hnested hresults.opens hresults.closes (by omega)
  have hmem : value ∈ (ofSource .go source).splitTopLevel (p.results.start + 1) p.results.stop ',' := by
    rw [hresults.pieces]
    exact List.mem_cons_self
  obtain ⟨hvalue, hvalue', hle⟩ := inCode_of_mem_splitTopLevel hstart hstop hlt.1 hlt.2 hmem
  obtain ⟨hpiece, -⟩ := wellNested_of_mem_splitTopLevel (by decide)
    (wellNested_of_closer? hnested hresults.closes) hlt.1 (Nat.le_of_lt hlt.2) hmem
  rw [← bytes_mask_slice hvalue hvalue' hle] at hpiece
  obtain ⟨blank, type, htrim, hblank, -, htype⟩ := hresults.value_text
  have htrim : Text.trim ((ofSource .go source).slice value.start value.stop) =
    s.resultName.toList ++ blank :: type := htrim
  generalize (ofSource .go source).slice value.start value.stop = text at *
  have htype : Text.ink s.returnType.text.toList = Text.ink type := by
    rw [htype, GoType.ink_text_ofText, String.toList_ofList]
  have htext : text.all isBareChar = true := by
    rw [← all_isBareChar_ink, ← Text.ink_trim, htrim, all_isBareChar_ink, List.all_append,
      hname.plain.all_isBareChar, ← all_isBareChar_ink, Text.ink_blank_cons hblank, ← htype,
      all_isBareChar_ink, hbare]
    rfl
  have hlevel := level_of_mask htext hpiece
  rw [← level_ink, ← Text.ink_trim, htrim, level_ink, level_append hname.plain, ← level_ink,
    Text.ink_blank_cons hblank, ← htype, level_ink] at hlevel
  exact hlevel

end Head

/-! ## The body -/

section Body

variable {source : List Char} {primitives : List String} {f : FunctionSpan} {p : MethodParts}
  {s : SyncMethod}

/-- A call of an identifier is well nested with its arguments. -/
theorem wellNested_call (hnested : WellNested (ofSource .go source).bytes)
    (h : Segmented (ofSource .go source) primitives f p s)
    (hname : Go.isIdentifier p.primitive = true) :
    WellNested ((ofSource .go source).byteSlice p.dot (p.args.stop + 1)) := by
  have horder := h.in_order
  have hplain : Plain ('.' :: p.primitive.toList) :=
    Plain.append (a := ['.']) (by decide) (Go.isName_toList hname).plain
  have hprefix : (Text.bytes ('.' :: p.primitive.toList)).isPrefixOf
      ((ofSource .go source).bytes.drop p.dot) = true := by
    have hcall := isPrefixOf_of_byteSlice h.calls
    rw [show f.opened + 1 + (p.dot - (f.opened + 1)) = p.dot by omega, callPattern,
      Text.bytes_append, List.isPrefixOf_iff_prefix] at hcall
    exact List.isPrefixOf_iff_prefix.2 ((List.prefix_append _ _).trans hcall)
  have hdot : (ofSource .go source).byteSlice p.dot p.args.start =
      Text.bytes ('.' :: p.primitive.toList) := by
    have hlen : (Text.bytes ('.' :: p.primitive.toList)).length = 1 + p.primitive.utf8ByteSize := by
      rw [Text.length_bytes, Text.byteLength_cons, Text.byteLength_toList]
      rfl
    rw [h.args_start, Nat.add_assoc, ← hlen]
    exact byteSlice_of_isPrefixOf hprefix
  rw [byteSlice_append (show p.dot ≤ p.args.start by omega) (by omega), hdot]
  exact (wellNested_of_all_isPlain hplain.isPlain_bytes).append
    (wellNested_enclosed (d := .paren) hnested h.args_opens h.args_closes)

/-- Behind the last `return` nothing is opened or closed. -/
theorem wellNested_return (h : Segmented (ofSource .go source) primitives f p s) :
    WellNested ((ofSource .go source).byteSlice p.returnAt f.closed) := by
  have horder := h.in_order
  have hcuts := h.boundaries
  simp only [MethodParts.cuts, List.forall_mem_cons] at hcuts
  have hword : (ofSource .go source).byteSlice p.returnAt (p.returnAt + "return".length) =
      Text.bytes "return".toList :=
    byteSlice_of_isPrefixOf (isPrefixOf_of_wordAt h.return_word)
  obtain ⟨-, -, -, -, -, -, -, -, -, -, -, -, -, -, -, -, -, hend, hclosed, -⟩ := hcuts
  rw [byteSlice_append (show p.returnAt ≤ p.returnAt + "return".length by omega) (by omega), hword]
  exact (wellNested_of_all_isPlain (by decide)).append
    (wellNested_of_isBlank hend hclosed (by omega) h.return_blank)

/-- What the statements before the call open the statements after it close, when the text before the
call in its own statement does neither. -/
theorem nestFrom_around_call (hnested : WellNested (ofSource .go source).bytes)
    (h : Segmented (ofSource .go source) primitives f p s)
    (hname : Go.isIdentifier p.primitive = true)
    (hhead : WellNested ((ofSource .go source).byteSlice p.statement p.dot)) :
    ∃ st, nestFrom [] ((ofSource .go source).byteSlice (f.opened + 1) p.statement) = some st ∧
      nestFrom st ((ofSource .go source).byteSlice (p.args.stop + 1) p.returnAt) = some [] := by
  have horder := h.in_order
  have hbody := wellNested_of_closer? hnested h.body_closes
  have hcall := wellNested_call hnested h hname
  have hreturn := wellNested_return h
  unfold WellNested at hbody
  rw [byteSlice_append (show f.opened + 1 ≤ p.statement by omega) (by omega),
    byteSlice_append (show p.statement ≤ p.dot by omega) (by omega),
    byteSlice_append (show p.dot ≤ p.args.stop + 1 by omega) (by omega),
    byteSlice_append (show p.args.stop + 1 ≤ p.returnAt by omega) (by omega)] at hbody
  obtain ⟨st, hbefore, hbody⟩ := nestFrom_append_eq_some.1 hbody
  rw [nestFrom_append_of_eq (hhead.nestFrom st), nestFrom_append_of_eq (hcall.nestFrom st)] at hbody
  obtain ⟨last, hafter, hlast⟩ := nestFrom_append_eq_some.1 hbody
  rw [hreturn.nestFrom last] at hlast
  obtain rfl := Option.some.inj hlast
  exact ⟨st, hbefore, hafter⟩

end Body

/-! ## The arguments -/

section Arguments

variable {source : List Char} {primitives : List String} {f : FunctionSpan} {name : Span}
  {receiver : Receiver} {c : CallSite} {s : SyncMethod}

/-- On one line a text has the same characters, but for blanks. -/
theorem ink_onOneLine (t : List Char) : Text.ink (onOneLine t) = Text.ink t := by
  have hspace : Text.ink [' '] = [] := by decide
  have hjoin (ws : List (List Char)) : Text.ink ([' '].intercalate ws) = Text.ink ws.flatten := by
    induction ws with
    | nil => rfl
    | cons w ws ih =>
      cases ws with
      | nil => simp [List.intercalate]
      | cons v ws =>
        rw [List.intercalate_cons_cons, Text.ink_append, Text.ink_append, ih, hspace, List.append_nil]
        exact (Text.ink_append w _).symm
  have hwords : Text.ink ([' '].intercalate (Text.words (Text.trim t))) =
      Text.ink (Text.trim t) := by
    rw [hjoin, Text.flatten_words, Text.ink_ink]
  unfold onOneLine
  dsimp only
  split
  · rw [hwords, Text.ink_trim]
  · exact Text.ink_trim t

/-- No character is torn behind a text that is closed when none is torn in both. -/
theorem Solid.whole_of_append {a b : List Char} (ha : Solid a) (h : Whole (glyphs .go (a ++ b))) :
    Whole (glyphs .go b) := by
  rw [ha.closed b fun hslash => absurd hslash ha.no_slash] at h
  exact fun g hg => h g (List.mem_append_right _ hg)

/-- Arguments that can be put on one line are well nested there. -/
theorem regular_callArgs (hnested : WellNested (ofSource .go source).bytes)
    (hf : f ∈ (ofSource .go source).functions)
    (hc : (ofSource .go source).callSite primitives f name = .ok c)
    (hs : (ofSource .go source).methodAt? receiver c = some s)
    (hname : Go.IsName s.resultName.toList)
    (hflat : ∀ piece ∈ ((ofSource .go source).splitTopLevel c.args.start c.args.stop ',').tail,
      Flattens ((ofSource .go source).spanText piece)) : Regular s.callArgs.toList := by
  obtain ⟨⟨first, behind, htext, hfirst, htokens⟩, -, hclosed⟩ := callArgs_of_flattens hf hc hs hflat
  have hcode := siteInCode hf hc
  obtain ⟨params, hsite⟩ := callSite_eq_ok.1 hc
  -- what stands between the parentheses is well nested, and so is what is left behind the address
  have hargs : WellNested (Text.bytes (mask .go (first ++ ',' :: behind))) := by
    have hbetween := wellNested_of_closer? hnested hsite.args_closed
    rw [← hsite.args_start, ← bytes_mask_slice hcode.args_start hcode.args_stop hcode.args_le]
      at hbetween
    exact htext ▸ hbetween
  have haddress : Plain ('&' :: s.resultName.toList) := Plain.append (a := ['&']) (by decide) hname.plain
  have hlevel : Level first := by
    rw [← level_ink, ← ink_onOneLine, hfirst, level_ink]
    exact ⟨haddress.all_isBareChar, by rw [haddress.delimiters_eq]; rfl⟩
  have hnone : delimiters first = [] := by
    rw [← delimiters_ink, ← ink_onOneLine, hfirst, delimiters_ink, haddress.delimiters_eq]
  have hsolid := solid_of_bare hlevel.bare
  have hbehind : WellNested (delimiters (mask .go behind)) := by
    have hcomma : delimiters [','] = [] := by decide
    unfold WellNested at hargs ⊢
    rw [← nestFrom_delimiters, hsolid.mask_append, mask_cons (by decide), delimiters_append,
      mask_of_isBare (isBare_of_all hlevel.bare), hnone, delimiters_cons, hcomma] at hargs
    exact hargs
  have hwhole : Whole (glyphs .go behind) := by
    obtain ⟨-, t, -, w, -, -, -, hslice, hend, -, -⟩ :=
      hcode.args_start.exists_between hcode.args_stop hcode.args_le
    have hslice : t = first ++ [','] ++ behind :=
      (hslice.symm.trans htext).trans (List.append_cons first ',' behind)
    exact (hsolid.append solid_comma).whole_of_append (hslice ▸ whole_of_endMode hend)
  refine ⟨hclosed, ?_⟩
  unfold WellNested at hbehind ⊢
  rw [← nestFrom_delimiters, delimiters_tokens hclosed.whole]
  rw [delimiters_tokens hwhole] at hbehind
  rcases htokens with htokens | htokens
  · rwa [htokens] at hbehind
  · rwa [htokens, List.flatMap_append, List.flatMap_singleton, GoToken.delimiters,
      List.append_nil] at hbehind

end Arguments

/-! ## The whole method -/

section Method

variable {source : List Char} {primitives : List String} {f : FunctionSpan} {name : Span}
  {receiver : Receiver} {c : CallSite} {s : SyncMethod}

/-- A method that can be batched without a loose delimiter. Its names are identifiers, no quote stands
alone in its signature and nothing begins in its types, the text before the call in its own statement
is well nested, the arguments can be put on one line, and the statements are kept but for whole lines
that are well nested. -/
structure Batchable (m : Masked) (c : CallSite) (s : SyncMethod) : Prop where
  receiverName : Go.IsName s.receiverName.toList
  receiverType : s.receiverType.toList.all isBareChar = true
  signature : legible s.signature.toList = true
  resultName : Go.IsName s.resultName.toList
  returnType : s.returnType.text.toList.all isBareChar = true
  before : ShedsLines (m.slice c.bodyStart c.statement)
  head : WellNested (m.byteSlice c.statement c.dot)
  args : ∀ piece ∈ (m.splitTopLevel c.args.start c.args.stop ',').tail,
    Flattens (m.spanText piece)
  after : ShedsLines (afterCall (m.slice (c.args.stop + 1) c.returnAt))

instance (m : Masked) (c : CallSite) (s : SyncMethod) : Decidable (Batchable m c s) :=
  decidable_of_iff
    (Go.IsName s.receiverName.toList ∧ s.receiverType.toList.all isBareChar = true ∧
      legible s.signature.toList = true ∧ Go.IsName s.resultName.toList ∧
      s.returnType.text.toList.all isBareChar = true ∧
      ShedsLines (m.slice c.bodyStart c.statement) ∧ WellNested (m.byteSlice c.statement c.dot) ∧
      (∀ piece ∈ (m.splitTopLevel c.args.start c.args.stop ',').tail,
        Flattens (m.spanText piece)) ∧
      ShedsLines (afterCall (m.slice (c.args.stop + 1) c.returnAt)))
    ⟨fun ⟨h₁, h₂, h₃, h₄, h₅, h₆, h₇, h₈, h₉⟩ => ⟨h₁, h₂, h₃, h₄, h₅, h₆, h₇, h₈, h₉⟩,
      fun h => ⟨h.1, h.2, h.3, h.4, h.5, h.6, h.7, h.8, h.9⟩⟩

/-- The parts of a method that can be batched are well nested when its file is. -/
theorem partsNest_of_batchable (hnames : ∀ q ∈ primitives, Go.isIdentifier q = true)
    (hnested : WellNested (ofSource .go source).bytes)
    (hf : f ∈ (ofSource .go source).functions)
    (hreceiver : (ofSource .go source).receiverAfter? f.head = some receiver)
    (hname : (ofSource .go source).nameAfter? receiver.stop = some name)
    (hc : (ofSource .go source).callSite primitives f name = .ok c)
    (hs : (ofSource .go source).methodAt? receiver c = some s)
    (h : Batchable (ofSource .go source) c s) : Go.PartsNest s := by
  obtain ⟨rs, params, results, hparts⟩ := segmented_of_callSite hf hreceiver hname hc hs
  obtain ⟨hbefore, hafter, -⟩ := methodAt?_eq_some hs
  have hcode := siteInCode hf hc
  obtain ⟨st, hopened, hclosed⟩ :=
    nestFrom_around_call hnested hparts (hnames _ hparts.primitive_mem) h.head
  -- both groups of statements are masked on their own
  have hopened : nestFrom [] (Text.bytes (mask .go
      ((ofSource .go source).slice c.bodyStart c.statement))) = some st := by
    obtain ⟨hcut, -⟩ := statement_spec hf hc
    obtain ⟨params, hsite⟩ := callSite_eq_ok.1 hc
    rw [← codeSlice_before hf hc h.before.settles,
      bytes_codeSlice hcode.bodyStart.cutsAt hcut hcode.body_le, hsite.body_eq]
    exact hopened
  have hclosed : nestFrom st (Text.bytes (mask .go
      (afterCall ((ofSource .go source).slice (c.args.stop + 1) c.returnAt)))) = some [] := by
    obtain ⟨a, -, hmask, ha⟩ :=
      exists_mask_afterCall ((ofSource .go source).slice (c.args.stop + 1) c.returnAt)
    have hnone : delimiters a = [] := delimiters_eq_nil fun d hd => by
      rcases ha d hd with rfl | rfl | rfl <;> decide
    have hall := bytes_mask_slice hcode.args_end hcode.returnAt hcode.args_lt
    rw [← hall, hmask, ← nestFrom_delimiters, delimiters_append, hnone, List.nil_append,
      nestFrom_delimiters] at hclosed
    exact hclosed
  obtain ⟨hkept, hsettles⟩ := h.before.nestFrom_kept hbefore hopened
  obtain ⟨hkept', hsettles'⟩ := h.after.nestFrom_kept hafter hclosed
  exact {
    receiverName := h.receiverName.plain
    receiverType := level_receiverType hnested hparts h.receiverName h.receiverType
    signature := leads_signature hnested hparts h.signature
    returnType := level_returnType hnested hparts h.resultName h.returnType
    callArgs := regular_callArgs hnested hf hc hs h.resultName h.args
    settles_before := hsettles
    settles_after := hsettles'
    statements := ⟨st, hkept, hkept'⟩ }

end Method

end Masked

namespace ClientFile

/-- In a well-nested client file the batched form of every method that is found is well nested, too,
when the method can be batched without a loose delimiter. -/
theorem wellNested_batchText {options : ClientOptions} {source : String} {file : ClientFile}
    {k : Nat} {g : ClientFunction} {s : SyncMethod}
    (hnames : ∀ q ∈ options.primitives, Go.isIdentifier q = true)
    (hfile : ClientFile.read? options source = some file) (hg : file.functions[k]? = some g)
    (hs : g.outcome = .found s)
    (hnested : Masked.WellNested (Text.bytes (Masked.mask .go source.toList))) :
    ∃ f c, (Masked.ofSource .go source.toList).functions[k]? = some f ∧
      (Masked.ofSource .go source.toList).siteOf? options.primitives f = some c ∧
      (Masked.Batchable (Masked.ofSource .go source.toList) c s →
        Masked.WellNested (Text.bytes (Masked.mask .go (Go.batchText {} s).toList))) := by
  obtain ⟨f, receiver, c, hf, hc, hreceiver, hmethod⟩ := exists_site hfile hg hs
  obtain ⟨receiver', name, hreceiver', hname, hsite⟩ := Masked.siteOf?_eq_some hc
  obtain rfl := Option.some.inj (hreceiver'.symm.trans hreceiver)
  have hparts := Masked.partsNest_of_batchable hnames hnested (List.mem_of_getElem? hf) hreceiver
    hname hsite hmethod
  exact ⟨f, c, hf, hc, fun h => (hparts h).wellNested Go.plainNames_standard⟩

/-- A method with its call inside of a block. -/
def callInBlock : String :=
  "func (c *C) M(n int) (y []T, err error) \x7b\n\tif n > 0 \x7b\n" ++
  "\t\terr = c.CallRPC(&y, \"a(\", []int\x7bn, 2\x7d)\n\t\x7d\n\treturn\n\x7d\n"

theorem wellNested_batchText_callInBlock :
    ∃ (file : ClientFile) (g : ClientFunction) (s : SyncMethod),
      ClientFile.read? ⟨["CallRPC"], none⟩ callInBlock = some file ∧
      file.functions[0]? = some g ∧ g.outcome = .found s ∧
      s.before = "if n > 0 \x7b" ∧ s.callArgs = "\"a(\", []int\x7bn, 2\x7d" ∧ s.after = "\x7d" ∧
      Masked.WellNested (Text.bytes (Masked.mask .go (Go.batchText {} s).toList)) := by
  have hread : ((ClientFile.read? ⟨["CallRPC"], none⟩ callInBlock).bind
      (·.functions[0]?)).bind (·.outcome.found?) =
      some ⟨"c", "C", "M(n int)", "y", .slice (.named "T"), "if n > 0 \x7b", some "a(",
        "\"a(\", []int\x7bn, 2\x7d", "\x7d"⟩ := by
    decide +kernel
  have hnested : Masked.WellNested (Text.bytes (Masked.mask .go callInBlock.toList)) := by
    decide +kernel
  obtain ⟨g, hg, hs⟩ := Option.bind_eq_some_iff.1 hread
  obtain ⟨file, hfile, hg⟩ := Option.bind_eq_some_iff.1 hg
  have hs := Masked.eq_found_of_found? hs
  obtain ⟨f, c, hf, hc, hbatched⟩ := wellNested_batchText (by decide) hfile hg hs hnested
  have hc : c ∈ ((Masked.ofSource .go callInBlock.toList).functions[0]?).bind
      ((Masked.ofSource .go callInBlock.toList).siteOf? ["CallRPC"]) :=
    Option.bind_eq_some_iff.2 ⟨f, hf, hc⟩
  have hbatchable : ∀ c ∈ ((Masked.ofSource .go callInBlock.toList).functions[0]?).bind
      ((Masked.ofSource .go callInBlock.toList).siteOf? ["CallRPC"]),
      Masked.Batchable (Masked.ofSource .go callInBlock.toList) c
        ⟨"c", "C", "M(n int)", "y", .slice (.named "T"), "if n > 0 \x7b", some "a(",
          "\"a(\", []int\x7bn, 2\x7d", "\x7d"⟩ := by
    decide +kernel
  exact ⟨file, g, _, hfile, hg, hs, rfl, rfl, rfl, hbatched (hbatchable c hc)⟩

/-- A method with its call inside of another one. -/
def nestedCall : String :=
  "func (c *C) M() (y T, err error) \x7b\n\terr = wrap(c.core.CallRPC(&y, \"a\"))\n" ++
  "\treturn\n\x7d\n"

/-- What a call stands in is not kept, but the parenthesis that closes it is. -/
theorem not_wellNested_batchText :
    ∃ (file : ClientFile) (g : ClientFunction) (s : SyncMethod),
      Masked.WellNested (Text.bytes (Masked.mask .go nestedCall.toList)) ∧
      ClientFile.read? ⟨({} : BulkSettings).primitives, none⟩ nestedCall = some file ∧
      file.functions[0]? = some g ∧ g.outcome = .found s ∧ s.after = ")" ∧
      ¬Masked.WellNested (Text.bytes (Masked.mask .go (Go.batchText {} s).toList)) := by
  have hread : ((ClientFile.read? ⟨({} : BulkSettings).primitives, none⟩ nestedCall).bind
      (·.functions[0]?)).bind (·.outcome.found?) =
      some ⟨"c", "C", "M()", "y", .named "T", "", some "a", "\"a\"", ")"⟩ := by
    decide +kernel
  obtain ⟨g, hg, hs⟩ := Option.bind_eq_some_iff.1 hread
  obtain ⟨file, hfile, hg⟩ := Option.bind_eq_some_iff.1 hg
  exact ⟨file, g, _, by decide +kernel, hfile, hg, Masked.eq_found_of_found? hs, rfl,
    by decide +kernel⟩

end ClientFile

end RpcBindings
