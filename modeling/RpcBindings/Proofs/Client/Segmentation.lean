import RpcBindings.Proofs.Client.CallSite
import RpcBindings.Proofs.Client.Function
import RpcBindings.Proofs.Masked.SafeIndex

/-!
How a synchronous method is cut into parts.

The searches that find the parts of a method are not bounded by its function: a partner may stand
behind it, and blanks may run on past it. Main statement: when a function is found as a method, all
parts stand in it nevertheless, in order and side by side, and read as the shape of a synchronous
method has it (`ClientFile.segmented_of_found`). Between the results and the brace of the body any
text may stand; every other gap is blank.
-/

namespace RpcBindings

/-- The parts of a synchronous method, by their offsets. Lists are given by their parentheses. -/
structure MethodParts where
  receiver : Span
  name : Span
  params : Span
  results : Span
  /-- Where the statement of the call begins. -/
  statement : Nat
  primitive : String
  /-- Where the dot before the primitive stands. -/
  dot : Nat
  args : Span
  /-- Where the last `return` stands. -/
  returnAt : Nat

namespace MethodParts

/-- Where the parts of a function begin and end, from its first offset to its last. -/
def cuts (p : MethodParts) (f : FunctionSpan) : List Nat :=
  [f.start, f.head, p.receiver.start, p.receiver.stop + 1, p.name.start, p.name.stop,
    p.params.start, p.params.stop + 1, p.results.start, p.results.stop + 1, f.opened, f.opened + 1,
    p.statement, p.dot, p.args.start, p.args.stop + 1, p.returnAt, p.returnAt + "return".length,
    f.closed, f.closed + 1]

end MethodParts

namespace Masked

variable {m : Masked}

/-- The method is what its function says part by part: the parts follow each other in the function,
each one begins and ends on a character boundary, and each one reads as the shape has it. -/
structure Segmented (m : Masked) (primitives : List String) (f : FunctionSpan) (p : MethodParts)
    (s : SyncMethod) : Prop where
  ordered : (p.cuts f).IsChain (· ≤ ·)
  boundaries : ∀ i ∈ p.cuts f, m.CutsAt i
  -- the head
  keyword : m.wordAt "func".toList f.start = true
  receiver_blank : m.isBlank f.head p.receiver.start = true
  receiver_opens : m.hasChar p.receiver.start '(' = true
  receiver_closes : m.closer? p.receiver.start = some p.receiver.stop
  receiver_words : ∃ type, Text.words (m.slice (p.receiver.start + 1) p.receiver.stop) =
    [s.receiverName.toList, type] ∧ s.receiverType.toList = type.dropWhile (· == '*')
  name_blank : m.isBlank (p.receiver.stop + 1) p.name.start = true
  name_eq : m.identAt? p.name.start = some p.name
  params_blank : m.isBlank p.name.stop p.params.start = true
  params_opens : m.hasChar p.params.start '(' = true
  params_closes : m.closer? p.params.start = some p.params.stop
  signature_eq : s.signature.toList = m.slice p.name.start (p.params.stop + 1)
  results : ∃ value error, ResultList m (p.params.stop + 1) f.opened p.results.start p.results.stop
    s.resultName s.returnType value error
  -- the body
  body_opens : m.hasChar f.opened '\x7b' = true
  body_closes : m.closer? f.opened = some f.closed
  before_eq : Client.keptStatements? (m.slice (f.opened + 1) p.statement) = some s.before.toList
  statement_begins : p.statement = f.opened + 1 ∨
    ∃ b, m.bytes[p.statement - 1]? = some b ∧ bordersStatement b = true
  assigns : ∃ b₁ b₂ rest, m.codeSlice p.statement p.dot = b₁ ++ "err".toList ++ b₂ ++ rest ∧
    Text.allBlank b₁ = true ∧ Text.allBlank b₂ = true ∧
    ((∃ r, rest = '=' :: r ∧ r.head? ≠ some '=') ∨ ∃ r, rest = ':' :: '=' :: r)
  primitive_mem : p.primitive ∈ primitives
  calls : (callPattern p.primitive).isPrefixOf
    ((m.byteSlice (f.opened + 1) f.closed).drop (p.dot - (f.opened + 1))) = true
  earliest : ∀ q ∈ primitives, ∀ k, f.opened + 1 + k < p.dot →
    (callPattern q).isPrefixOf ((m.byteSlice (f.opened + 1) f.closed).drop k) = false
  args_start : p.args.start = p.dot + 1 + p.primitive.utf8ByteSize
  args_opens : m.hasChar p.args.start '(' = true
  args_closes : m.closer? p.args.start = some p.args.stop
  arguments : ∃ rest, m.arguments ⟨p.args.start + 1, p.args.stop⟩ =
      ("&" ++ s.resultName).toList :: rest ∧ rest ≠ [] ∧
    s.callArgs.toList = [',', ' '].intercalate rest ∧
    s.wireName? = (rest.head?.bind Text.unquote?).map String.ofList
  after_eq : Client.keptStatements? (afterCall (m.slice (p.args.stop + 1) p.returnAt)) =
    some s.after.toList
  return_begins : p.returnAt = f.opened + 1 ∨
    ∃ c, m.bytes[p.returnAt - 1]? = some c.toUInt8 ∧ precedesStatement c = true
  return_word : m.wordAt "return".toList p.returnAt = true
  return_blank : m.isBlank (p.returnAt + "return".length) f.closed = true

namespace Segmented

variable {primitives : List String} {f : FunctionSpan} {p : MethodParts} {s : SyncMethod}

/-- The parts of a method, one after the other, are its function. -/
theorem flatten_segments (h : Segmented m primitives f p s) :
    (m.segments (p.cuts f)).flatten = m.spanText f.whole := by
  exact Masked.flatten_segments h.ordered h.boundaries

/-- The parts of a method stand in order in the text. -/
theorem in_order (h : Segmented m primitives f p s) :
    p.receiver.start < p.receiver.stop ∧ p.receiver.stop < p.name.start ∧
      p.name.start ≤ p.name.stop ∧ p.name.stop ≤ p.params.start ∧ p.params.start < p.params.stop ∧
      p.params.stop < p.results.start ∧ p.results.start < p.results.stop ∧
      p.results.stop < f.opened ∧ f.opened < p.statement ∧ p.statement ≤ p.dot ∧
      p.dot ≤ p.args.start ∧ p.args.start < p.args.stop ∧ p.args.stop < p.returnAt ∧
      p.returnAt + "return".length ≤ f.closed ∧ f.closed < m.size := by
  obtain ⟨_, _, hresults⟩ := h.results
  have hchain := h.ordered
  have hreceiver := (lt_of_closer? h.receiver_closes).1
  have hparams := (lt_of_closer? h.params_closes).1
  have hlist := (lt_of_closer? hresults.closes).1
  have hargs := (lt_of_closer? h.args_closes).1
  have hclosed := (lt_of_closer? h.body_closes).2
  simp only [MethodParts.cuts, List.isChain_cons_cons, List.isChain_singleton, and_true] at hchain
  omega

end Segmented

/-! ## The return -/

theorem breaksWord_of_precedesStatement {c : Char} (h : precedesStatement c = true) :
    c.utf8Size = 1 ∧ breaksWord (some c.toUInt8) = true := by
  unfold precedesStatement at h
  simp only [Bool.or_eq_true, beq_iff_eq] at h
  rcases h with (((rfl | rfl) | rfl) | rfl) | rfl <;> decide

/-- The `return` that ends a body is a word of its own, and only blanks follow it. -/
theorem return_spec {f : FunctionSpan} {r : Nat} (hopens : m.hasChar f.opened '\x7b' = true)
    (hcloses : m.hasChar f.closed '\x7d' = true) (hstart : m.CutsAt (f.opened + 1))
    (hstop : m.CutsAt f.closed) (hle : f.opened + 1 ≤ f.closed) (h : m.bareReturn? f.body = some r) :
    f.opened + 1 ≤ r ∧ r + "return".length ≤ f.closed ∧
      (r = f.opened + 1 ∨ ∃ c, m.bytes[r - 1]? = some c.toUInt8 ∧ precedesStatement c = true) ∧
      m.wordAt "return".toList r = true ∧ m.isBlank (r + "return".length) f.closed = true := by
  obtain ⟨before, blank, hcode, hblank, hborder, hr⟩ := bareReturn?_eq_some.1 h
  have hr : r = f.opened + 1 + Text.byteLength before := hr
  have hcode : m.codeSlice (f.opened + 1) f.closed = before ++ ("return".toList ++ blank) :=
    hcode.trans (List.append_assoc _ _ _)
  obtain ⟨hlen, hrest, hdrop⟩ := codeSlice_of_append hstart hstop hle hcode
  have hword : Text.byteLength ("return".toList ++ blank) = 6 + Text.byteLength blank :=
    Text.byteLength_append _ _
  have hbegins : r = f.opened + 1 ∨
      ∃ c, m.bytes[r - 1]? = some c.toUInt8 ∧ precedesStatement c = true := by
    rcases List.eq_nil_or_concat' before with rfl | ⟨init, c, rfl⟩
    · exact .inl hr
    · have hc : precedesStatement c = true := by simpa using hborder
      have hsize := (breaksWord_of_precedesStatement hc).1
      rw [List.append_assoc] at hcode
      obtain ⟨-, -, hc'⟩ := codeSlice_of_append hstart hstop hle hcode
      refine .inr ⟨c, ?_, hc⟩
      have hprev : r - 1 = f.opened + 1 + Text.byteLength init := by
        rw [hr, Text.byteLength_append, Text.byteLength_cons, hsize, Text.byteLength_nil]
        omega
      rw [hprev, ← List.head?_drop, hc', List.singleton_append, Text.bytes_cons_of_narrow hsize]
      rfl
  rw [← hr] at hdrop hlen
  refine ⟨by omega, by show r + 6 ≤ f.closed; omega, hbegins, ?_, ?_⟩
  · unfold wordAt wordHere
    rw [Bool.and_eq_true, Bool.and_eq_true, hdrop, Text.bytes_append, List.append_assoc]
    refine ⟨⟨List.isPrefixOf_iff_prefix.2 (List.prefix_append _ _), ?_⟩, ?_⟩
    · obtain ⟨k, rfl⟩ : ∃ k, r = k + 1 := ⟨f.opened + Text.byteLength before, by omega⟩
      show breaksWord m.bytes[k]? = true
      rcases hbegins with hb | ⟨c, hb, hc⟩
      · obtain rfl : k = f.opened := Nat.succ.inj hb
        rw [hasChar_iff.1 hopens]
        decide
      · rw [Nat.add_sub_cancel] at hb
        rw [hb]
        exact (breaksWord_of_precedesStatement hc).2
    · rw [List.drop_left]
      cases blank with
      | nil =>
        rw [Text.bytes_nil, List.nil_append, List.head?_drop, hasChar_iff.1 hcloses]
        decide
      | cons c blank =>
        have hc : Text.isBlank c = true := List.all_eq_true.1 hblank c List.mem_cons_self
        rw [Text.bytes_cons, List.append_assoc]
        exact breaksWord_of_isBlank hc _
  · rw [← List.append_assoc] at hcode
    obtain ⟨-, hstays, -⟩ := codeSlice_of_append hstart hstop hle hcode
    rw [Text.byteLength_append, ← Nat.add_assoc, ← hr] at hstays
    have hstays : m.codeSlice (r + 6) f.closed = blank := hstays
    show Text.allBlank (m.codeSlice (r + 6) f.closed) = true
    rw [hstays]
    exact hblank

/-! ## Where parts begin and end -/

theorem lt_of_bordersStatement {b : UInt8} (h : bordersStatement b = true) :
    b < 0x80 ∧ b ≠ 0x20 := by
  unfold bordersStatement at h
  simp only [Bool.or_eq_true, decide_eq_true_eq] at h
  rcases h with ((rfl | rfl) | rfl) | rfl <;> decide

section Cuts

variable {source : List Char} {i j : Nat}

theorem cutsAt_statementStart_ofSource (hi : (ofSource .go source).CutsAt i) (hle : i ≤ j) :
    (ofSource .go source).CutsAt ((ofSource .go source).statementStart i j) := by
  obtain ⟨-, -, heq | ⟨hlt, b, hb, hborder⟩⟩ := statementStart_spec (ofSource .go source) hle
  · rw [heq]
    exact hi
  · obtain ⟨hlow, hspace⟩ := lt_of_bordersStatement hborder
    have := (cutsAt_of_byte hb hlow hspace).2
    rwa [Nat.sub_add_cancel (by omega)] at this

/-- Inside of parentheses, and around them, a source can be cut. -/
theorem cutsAt_parens (ho : (ofSource .go source).hasChar i '(' = true)
    (hc : (ofSource .go source).closer? i = some j) :
    (ofSource .go source).CutsAt i ∧ (ofSource .go source).CutsAt (i + 1) ∧
      (ofSource .go source).CutsAt j ∧ (ofSource .go source).CutsAt (j + 1) ∧ i + 1 ≤ j := by
  obtain ⟨hopen, hinside⟩ := cutsAt_of_hasChar ho (by decide) (by decide)
  obtain ⟨hclose, hbehind⟩ := cutsAt_of_closer? hc
  exact ⟨hopen, hinside, hclose, hbehind, (lt_of_closer? hc).1⟩

/-- A keyword begins and ends where the source can be cut. -/
theorem cutsAt_keyword {word : List Char} {first last : Char} {k : Nat}
    (h : (ofSource .go source).wordAt word i = true)
    (hfirst : (Text.bytes word)[0]? = some first.toUInt8)
    (hlast : (Text.bytes word)[k]? = some last.toUInt8) (hf : first.utf8Size = 1)
    (hl : last.utf8Size = 1) (hfs : first ≠ ' ') (hls : last ≠ ' ') :
    (ofSource .go source).CutsAt i ∧ (ofSource .go source).CutsAt (i + k + 1) :=
  ⟨(cutsAt_of_hasChar (hasChar_of_wordAt h hfirst) hf hfs).1,
    (cutsAt_of_hasChar (hasChar_of_wordAt h hlast) hl hls).2⟩

end Cuts

/-! ## All parts -/

/-- The parts of a method stand around its call site. -/
theorem segmented_of_callSite {source : List Char} {primitives : List String} {f : FunctionSpan}
    {receiver : Receiver} {name : Span} {c : CallSite} {s : SyncMethod}
    (hf : f ∈ (ofSource .go source).functions)
    (hreceiver : (ofSource .go source).receiverAfter? f.head = some receiver)
    (hname : (ofSource .go source).nameAfter? receiver.stop = some name)
    (hsite : (ofSource .go source).callSite primitives f name = .ok c)
    (hmethod : (ofSource .go source).methodAt? receiver c = some s) :
    ∃ rs params results, Segmented (ofSource .go source) primitives f
      ⟨rs, name, params, results, c.statement, c.primitive, c.dot,
        ⟨c.dot + 1 + c.primitive.utf8ByteSize, c.args.stop⟩, c.returnAt⟩ s := by
  obtain ⟨hkeyword, -, hopener, hclosed⟩ := mem_functions hf
  obtain ⟨rs, type, hrs, hwords, htype, hrstop⟩ := receiverAfter?_eq_some hreceiver
  obtain ⟨hrle, hrblank, hropens, hrcloses⟩ := parensAfter?_eq_some hrs
  obtain ⟨hskip, hident⟩ := nameAfter?_eq_some hname
  obtain ⟨params, hsite⟩ := callSite_eq_ok.1 hsite
  obtain ⟨hple, hpblank, hpopens, hpcloses⟩ := parensAfter?_eq_some hsite.params_at
  obtain ⟨opened, closed, value, error, hresults⟩ := namedResult_eq_ok hsite.results
  obtain ⟨hfle, hfopens⟩ := bodyOpener?_eq_some hopener
  have hfcloses : (ofSource .go source).hasChar f.closed '\x7d' = true :=
    hasChar_closer (d := .brace) hfopens hclosed
  obtain ⟨offset, hdot, hfirst⟩ := hsite.first_call
  obtain ⟨hmem, hcall, hearliest⟩ := firstCall?_eq_some hfirst
  obtain ⟨hdotc, hargsc⟩ := call_spec (isPrefixOf_of_byteSlice hcall)
  rw [← hdot] at hdotc hargsc
  -- where each part ends
  have hropened := lt_of_closer? hrcloses
  have hskiple := le_of_skipBlank? hskip
  obtain ⟨-, hnamelt, -⟩ := identAt?_eq_some hident
  have hpopened := lt_of_closer? hpcloses
  have hresle := le_of_skipBlank? hresults.after_blanks
  have hreslt := lt_of_closer? hresults.closes
  have hresstop := hresults.before_stop
  have hflt := lt_of_closer? hclosed
  have hargslt := lt_of_closer? hsite.args_closed
  have hreturnlt := hsite.args_before_return
  have hbodystart : f.body.start = f.opened + 1 := rfl
  have hbodydot : f.opened + 1 ≤ c.dot := by omega
  obtain ⟨hstle, hlest, hstbegins⟩ := statementStart_spec (ofSource .go source) hbodydot
  have hst : c.statement = (ofSource .go source).statementStart (f.opened + 1) c.dot :=
    hsite.statement_eq
  rw [← hst] at hstle hlest hstbegins
  -- every part begins and ends at a byte of code
  have hfunc := @cutsAt_keyword source f.start _ 'f' 'c' 3 hkeyword rfl rfl rfl rfl (by decide)
    (by decide)
  obtain ⟨hr, -, -, hr', -⟩ := cutsAt_parens hropens hrcloses
  obtain ⟨hp, -, -, hp', -⟩ := cutsAt_parens hpopens hpcloses
  obtain ⟨hres, -, -, hres', -⟩ := cutsAt_parens hresults.opens hresults.closes
  obtain ⟨hargs, -, -, hargs', -⟩ := cutsAt_parens hargsc hsite.args_closed
  have hopened := cutsAt_of_hasChar hfopens (by decide) (by decide)
  have hclosedc := cutsAt_of_hasChar hfcloses (by decide) (by decide)
  have hdotcut := cutsAt_of_hasChar hdotc (by decide) (by decide)
  have hn := cutsAt_of_identAt? hident
  have hstcut : (ofSource .go source).CutsAt c.statement :=
    hst ▸ cutsAt_statementStart_ofSource hopened.2 hbodydot
  obtain ⟨hretle, hretstop, hretbegins, hretword, hretblank⟩ :=
    return_spec hfopens hfcloses hopened.2 hclosedc.1 (by omega) hsite.return_at
  have hret := @cutsAt_keyword source c.returnAt _ 'r' 'n' 5 hretword rfl rfl rfl rfl (by decide)
    (by decide)
  obtain ⟨hbefore, hafter, hrname, hrtype, hsig, hresult, hreturnType, hwire, hcallArgs⟩ :=
    methodAt?_eq_some hmethod
  rw [hsite.body_eq] at hbefore
  rw [hsite.signature_eq] at hsig
  have hargsstart := hsite.args_start
  let p : MethodParts :=
    { receiver := rs
      name
      params
      results := ⟨opened, closed⟩
      statement := c.statement
      primitive := c.primitive
      dot := c.dot
      args := ⟨c.dot + 1 + c.primitive.utf8ByteSize, c.args.stop⟩
      returnAt := c.returnAt }
  have hordered : (p.cuts f).IsChain (· ≤ ·) := by
    have hhead : f.head = f.start + 4 := rfl
    have hlen : "return".length = 6 := rfl
    simp only [p, MethodParts.cuts, List.isChain_cons_cons, List.isChain_singleton, and_true]
    omega
  have hboundaries : ∀ i ∈ p.cuts f, (ofSource .go source).CutsAt i := by
    simp only [p, MethodParts.cuts, List.forall_mem_cons]
    exact ⟨hfunc.1, hfunc.2, hr, hr', hn.1, hn.2.1, hp, hp', hres, hres', hopened.1, hopened.2,
      hstcut, hdotcut.1, hargs, hargs', hret.1, hret.2, hclosedc.1, hclosedc.2, by simp⟩
  have harguments : (⟨c.dot + 1 + c.primitive.utf8ByteSize + 1, c.args.stop⟩ : Span) = c.args := by
    rw [← hargsstart]
  refine ⟨rs, params, ⟨opened, closed⟩, ?_⟩
  exact
    { ordered := hordered
      boundaries := hboundaries
      keyword := hkeyword
      receiver_blank := hrblank
      receiver_opens := hropens
      receiver_closes := hrcloses
      receiver_words := ⟨type, by rw [hrname, hwords], by rw [hrtype, htype]⟩
      name_blank := by rw [← hrstop]; exact isBlank_of_skipBlank? hskip
      name_eq := hident
      params_blank := hpblank
      params_opens := hpopens
      params_closes := hpcloses
      signature_eq := hsig
      results := ⟨value, error, by rw [hresult, hreturnType]; exact hresults⟩
      body_opens := hfopens
      body_closes := hclosed
      before_eq := hbefore
      statement_begins := hstbegins.imp_right (·.2)
      assigns := assignsErr_iff.1 hsite.assigns
      primitive_mem := hmem
      calls := by
        show (callPattern c.primitive).isPrefixOf (List.drop (c.dot - (f.opened + 1)) _) = true
        rw [show c.dot - (f.opened + 1) = offset by omega]
        exact hcall
      earliest := fun q hq k hk => by
        have hk : f.opened + 1 + k < c.dot := hk
        exact hearliest q hq k (by omega)
      args_start := rfl
      args_opens := hargsc
      args_closes := hsite.args_closed
      arguments := ⟨c.rest, by rw [hresult, ← hsite.arguments_eq, ← harguments],
        hsite.rest_ne_nil, hcallArgs, hwire⟩
      after_eq := hafter
      return_begins := hretbegins
      return_word := hretword
      return_blank := hretblank }

/-- What is found as a method is cut into the parts of its function. -/
theorem exists_segmented {source : List Char} {primitives : List String} {f : FunctionSpan}
    {s : SyncMethod} (hf : f ∈ (ofSource .go source).functions)
    (hs : (ofSource .go source).readFunction? primitives f = some (.found s)) :
    ∃ p, Segmented (ofSource .go source) primitives f p s := by
  obtain ⟨receiver, name, c, hreceiver, hname, hsite, hmethod⟩ := readFunction?_eq_found hs
  obtain ⟨rs, params, results, h⟩ := segmented_of_callSite hf hreceiver hname hsite hmethod
  exact ⟨_, h⟩

end Masked

/-- Every method that is found in a client file is its function, cut into the parts of a synchronous
method: they follow each other inside the function, nothing of it is left out, and the primitive is
the first one that the body calls. -/
theorem ClientFile.segmented_of_found {options : ClientOptions} {source : String}
    {file : ClientFile} {k : Nat} {g : ClientFunction} {s : SyncMethod}
    (hfile : ClientFile.read? options source = some file) (hg : file.functions[k]? = some g)
    (hs : g.outcome = .found s) :
    ∃ f p, (Masked.ofSource .go source.toList).functions[k]? = some f ∧
      Masked.Segmented (Masked.ofSource .go source.toList) options.primitives f p s ∧
      ((Masked.ofSource .go source.toList).segments (p.cuts f)).flatten =
        (Masked.ofSource .go source.toList).spanText f.whole := by
  obtain ⟨f, o, hf, ho, hout⟩ := ClientFile.getElem?_functions hfile hg
  obtain rfl := Masked.found_of_ofType (hout.symm.trans hs)
  obtain ⟨p, hp⟩ := Masked.exists_segmented (List.mem_of_getElem? hf) ho
  exact ⟨f, p, hf, hp, hp.flatten_segments⟩

/-- A file with one method, which two primitives of the list could be called in. -/
def ClientFile.oneMethod : String :=
  "func (c *Client) A(n int) (x int, err error) \x7b\n\terr = c.core.Call(&x, \"m\", n)\n\t" ++
  "c.Log(\".Send(\")\n\treturn\n\x7d\n"

theorem ClientFile.segmented_oneMethod :
    ∃ file g s, ClientFile.read? ⟨["Send", "Call"], none⟩ ClientFile.oneMethod = some file ∧
      file.functions[0]? = some g ∧ g.outcome = .found s ∧ s.callArgs = "\"m\", n" ∧
      ∃ f p, (Masked.ofSource .go ClientFile.oneMethod.toList).functions[0]? = some f ∧
        Masked.Segmented (Masked.ofSource .go ClientFile.oneMethod.toList) ["Send", "Call"] f p s ∧
        ((Masked.ofSource .go ClientFile.oneMethod.toList).segments (p.cuts f)).flatten =
          (Masked.ofSource .go ClientFile.oneMethod.toList).spanText f.whole := by
  have hread : ((ClientFile.read? ⟨["Send", "Call"], none⟩ ClientFile.oneMethod).bind
      (·.functions[0]?)).bind (·.outcome.found?) =
      some ⟨"c", "Client", "A(n int)", "x", .named "int", "", some "m", "\"m\", n",
        "c.Log(\".Send(\")"⟩ := by
    decide +kernel
  obtain ⟨g, hg, hs⟩ := Option.bind_eq_some_iff.1 hread
  obtain ⟨file, hfile, hg⟩ := Option.bind_eq_some_iff.1 hg
  have hs := Masked.eq_found_of_found? hs
  exact ⟨file, g, _, hfile, hg, hs, rfl, ClientFile.segmented_of_found hfile hg hs⟩

end RpcBindings
