import RpcBindings.Proofs.Client.MethodReading
import RpcBindings.Proofs.Go.ImportClause
import RpcBindings.Proofs.Text.Layout

/-!
Synchronous methods in their documented shape are found.

A method is documented by its parts: its names, the texts of its parameters and of its result type,
the arguments of its call, and the statements before and after the call. Main statement: a file that
holds such a method and nothing else is read, and all parts of the method are found in it
(`ClientFile.read?_of_documented`).
-/

namespace RpcBindings

open Masked

namespace MethodText

variable {t : MethodText} {primitives : List String}

/-! ## A file of one method -/

/-- The functions of a file of one method. -/
theorem functions_text (h : t.Wf primitives) :
    (ofSource .go t.text).functions = [t.span 0] := by
  have ht : (ofSource .go t.text).TextFrom 0 (t.text ++ []) := by
    rw [List.append_nil]
    exact TextFrom.start t.text
  have hsize : (ofSource .go t.text).size = (t.span 0).closed + 1 := by
    rw [closed_span, Nat.zero_add, ← byteLength_mask (regular_text h).closed]
    exact Text.length_bytes _
  have hfunction := holdsFunction_text h ht (isLineStart_zero _)
  refine functions_eq ⟨Nat.le_refl 0, fun i _ hi => absurd hi (Nat.not_lt_zero i), hfunction, ?_⟩
  intro i hle hlt
  omega

end MethodText

/-! ## Statements without conditionals -/

/-- Statements without a conditional are kept whole. -/
theorem Client.keptStatements?_of_wordStarts {text : List Char}
    (h : (ofSource .go text).wordStarts "if" = []) :
    Client.keptStatements? text = Text.tidy? text := by
  unfold keptStatements? errorBlocks
  rw [h]
  show Text.tidy? (Text.dropBytes 0 text) = _
  rw [Text.dropBytes_zero]

/-- Statements between line feeds are laid out as on their own. -/
theorem Client.keptStatements?_between_newlines {text : List Char} (hclosed : Closed text)
    (h : (ofSource .go text).wordStarts "if" = []) :
    Client.keptStatements? ('\n' :: (text ++ ['\n'])) = Text.tidy? text := by
  have hmask : mask .go ('\n' :: (text ++ ['\n'])) = '\n' :: (mask .go text ++ ['\n']) := by
    rw [mask_cons (by decide), mask_append hclosed fun _ => detached_cons (by decide) (by decide) _]
    rfl
  have hbytes : (ofSource .go ('\n' :: (text ++ ['\n']))).bytes =
      '\n'.toUInt8 :: ((ofSource .go text).bytes ++ ['\n'.toUInt8]) := by
    rw [bytes_ofSource, hmask, Text.bytes_cons_of_narrow (by decide), Text.bytes_append]
    rfl
  have hnone := wordStarts_between_newlines h (by decide) hbytes (by decide)
  rw [keptStatements?_of_wordStarts hnone, Text.tidy?_newline_cons, Text.tidy?_append_newline]

/-! ## The documented shape -/

/-- The parts of a method in its documented shape. -/
structure DocumentedMethod where
  receiver : List Char
  type : List Char
  name : List Char
  params : List Char
  result : List Char
  resultType : List Char
  /-- The field of the receiver that makes the call. -/
  field : List Char
  primitive : List Char
  /-- The arguments after the address of the result. -/
  args : List (List Char)
  before : List Char
  after : List Char

namespace DocumentedMethod

/-- The text of the method, with the call and the `return` on lines of their own. -/
def source (d : DocumentedMethod) : List Char :=
  "func (".toList ++ d.receiver ++ " *".toList ++ d.type ++ ") ".toList ++ d.name ++
    "(".toList ++ d.params ++ ") (".toList ++ d.result ++ " ".toList ++ d.resultType ++
    ", err error) \x7b\n".toList ++ d.before ++
    "\nerr = ".toList ++ d.receiver ++ ".".toList ++ d.field ++ ".".toList ++ d.primitive ++
    "(&".toList ++ d.result ++ d.args.flatMap (", ".toList ++ ·) ++ ")\n".toList ++ d.after ++
    "\nreturn\n\x7d".toList

/-- Statements around a call that say nothing to the reader: closed and balanced, without a call of
a primitive and without a conditional, and indented by blanks of one byte. -/
structure Statements (primitives : List String) (cs : List Char) : Prop extends Regular cs where
  calls : CallsNone primitives cs
  conditionals : (ofSource .go cs).wordStarts "if" = []
  indents : Text.NarrowIndents cs

/-- An argument of a call: balanced on one line, without blanks around it, a comment, or a comma of
its own. -/
structure Argument (cs : List Char) : Prop extends Lacks ',' cs where
  not_blank : Text.allBlank cs = false
  trimmed : Text.trim cs = cs
  one_line : '\n' ∉ cs
  comment_free : commentFree cs = true

/-- The parts of a method are what its shape asks for. -/
structure Wf (d : DocumentedMethod) (primitives : List String) : Prop where
  receiver : Go.IsName d.receiver
  type : Go.IsName d.type
  name : Go.IsName d.name
  result : Go.IsName d.result
  field : Go.IsName d.field
  primitive : String.ofList d.primitive ∈ primitives
  names : ∀ q ∈ primitives, Go.isIdentifier q = true
  params : Regular d.params
  resultType : Lacks ',' d.resultType
  resultType_not_blank : Text.allBlank d.resultType = false
  resultType_one_line : '\n' ∉ d.resultType
  args_ne_nil : d.args ≠ []
  args : ∀ a ∈ d.args, Argument a
  before : Statements primitives d.before
  after : Statements primitives d.after

/-- The method as the reader takes it apart. -/
def methodText (d : DocumentedMethod) : MethodText where
  receiver := d.receiver
  type := d.type
  name := d.name
  params := d.params
  result := d.result
  resultType := d.resultType
  lead := '\n' :: d.before
  indent := []
  field := d.field
  primitive := d.primitive
  args := d.args
  trail := '\n' :: d.after

variable {d : DocumentedMethod} {primitives : List String}

theorem source_eq (d : DocumentedMethod) : d.source = d.methodText.text := by
  have hpieces : [','].intercalate d.methodText.pieces =
      '&' :: (d.result ++ d.args.flatMap (", ".toList ++ ·)) :=
    MethodText.intercalate_commas _ _
  have hresults : [','].intercalate d.methodText.results =
      d.result ++ ' ' :: (d.resultType ++ ", err error".toList) := by
    simp [MethodText.results, methodText, List.intercalate]
  unfold source MethodText.text MethodText.afterName MethodText.body MethodText.call
  rw [hpieces, hresults]
  simp [MethodText.receiverText, MethodText.head, MethodText.tail, methodText]

/-- The first character of an argument is code. -/
theorem Argument.allBlank_mask {a : List Char} (h : Argument a) :
    Text.allBlank (mask .go a) = false := by
  cases a with
  | nil => exact absurd h.not_blank (by decide)
  | cons c cs =>
    obtain ⟨rest, hmask⟩ := mask_cons_of_commentFree h.comment_free
    have hc := Text.not_isBlank_of_trim_eq h.trimmed
    rw [hmask, Text.allBlank, List.all_cons, hc, Bool.false_and]

theorem Statements.callsNone_newline_cons {cs : List Char} (h : Statements primitives cs) :
    CallsNone primitives ('\n' :: cs) := by
  intro q hq
  have hdot : (callPattern q).isPrefixOf ('\n'.toUInt8 :: Text.bytes (mask .go cs)) = false := by
    refine Bool.eq_false_iff.2 fun hcall => ?_
    obtain ⟨rest, hrest⟩ := exists_of_callPattern hcall
    exact absurd (List.cons.inj hrest).1 (by decide)
  have hnone : Text.findBytes? (callPattern q) (Text.bytes (mask .go cs)) = none := h.calls q hq
  unfold callOffset?
  rw [mask_cons (by decide), Text.bytes_cons_of_narrow (by decide), Text.findBytes?]
  rw [show Text.bytes ('.' :: q.toList ++ ['(']) = callPattern q from rfl, hdot, hnone]
  rfl

theorem Statements.regular_newline_cons {cs : List Char} (h : Statements primitives cs) :
    Regular ('\n' :: cs) := by
  have hnewline : Plain ['\n'] := by unfold Plain; decide
  exact hnewline.regular.append h.toRegular fun hslash => absurd hslash (by decide)

theorem Wf.methodText (h : d.Wf primitives) : d.methodText.Wf primitives where
  receiver := h.receiver
  type := h.type
  name := h.name
  result := h.result
  field := h.field
  primitive := h.primitive
  names := h.names
  params := h.params
  resultType := h.resultType
  resultType_not_blank := h.resultType_not_blank
  lead := h.before.regular_newline_cons
  lead_calls := h.before.callsNone_newline_cons
  indent := fun _ hc => absurd hc List.not_mem_nil
  args_ne_nil := h.args_ne_nil
  args := fun a ha => ⟨(h.args a ha).toLacks, (h.args a ha).trimmed, (h.args a ha).one_line⟩
  last_arg := fun a ha => (h.args a (List.mem_of_getLast? ha)).allBlank_mask
  trail := h.after.regular_newline_cons

/-- The method that is found in the shape, when its statements are laid out. -/
def found (d : DocumentedMethod) (before after : List Char) : SyncMethod where
  receiverName := .ofList d.receiver
  receiverType := .ofList d.type
  signature := .ofList (d.name ++ '(' :: (d.params ++ [')']))
  resultName := .ofList d.result
  returnType := .ofText (.ofList d.resultType)
  before := .ofList before
  wireName? := (d.args.head?.bind Text.unquote?).map String.ofList
  callArgs := .ofList ([',', ' '].intercalate d.args)
  after := .ofList after

/-- The function of the text is read as the method. -/
theorem readFunction?_source (h : d.Wf primitives) {before after : List Char}
    (hbefore : Text.tidy? d.before = some before) (hafter : Text.tidy? d.after = some after) :
    (ofSource .go d.source).readFunction? primitives (d.methodText.span 0) =
      some (.found (d.found before after)) := by
  have ht : (ofSource .go d.methodText.text).TextFrom 0 (d.methodText.text ++ []) := by
    rw [List.append_nil]
    exact TextFrom.start d.methodText.text
  have hlead : Client.keptStatements? (d.methodText.lead ++ ['\n']) = some before := by
    rw [← hbefore]
    exact Client.keptStatements?_between_newlines h.before.closed h.before.conditionals
  have htrail : Client.keptStatements? (afterCall (d.methodText.trail ++ '\n' ::
      d.methodText.indent)) = some after := by
    rw [← hafter]
    exact Client.keptStatements?_between_newlines h.after.closed h.after.conditionals
  rw [source_eq]
  exact MethodText.readFunction?_text h.methodText ht hlead htrail

/-- The receiver of the method is the receiver of the file. -/
theorem receiverAfter?_source (h : d.Wf primitives) :
    (ofSource .go d.source).receiverAfter? (d.methodText.span 0).head =
      some ⟨.ofList d.receiver, .ofList d.type,
        4 + 1 + 1 + Text.byteLength d.methodText.receiverText + 1⟩ := by
  have ht : (ofSource .go d.methodText.text).TextFrom 0 (d.methodText.text ++ []) := by
    rw [List.append_nil]
    exact TextFrom.start d.methodText.text
  obtain ⟨hhead, -, -⟩ := MethodText.Wf.textFrom_afterName h.methodText ht
  have hreceiver := MethodText.Wf.receiverAfter?_text h.methodText hhead
  rw [source_eq]
  rwa [Nat.zero_add] at hreceiver

end DocumentedMethod

/-- A method in its documented shape is the one method that its file holds: it is found, and all its
parts are, the statements around its call laid out anew. -/
theorem ClientFile.read?_of_documented {d : DocumentedMethod} {primitives : List String}
    {client? : Option String} (h : d.Wf primitives)
    (hclient : ∀ w, client? = some w → w = .ofList d.type) :
    ∃ file before after, ClientFile.read? ⟨primitives, client?⟩ (.ofList d.source) = some file ∧
      Text.tidy? d.before = some before ∧ Text.tidy? d.after = some after ∧
      file.functions = [⟨.found (d.found before after), []⟩] := by
  obtain ⟨before, hbefore⟩ := Text.exists_tidy? h.before.indents
  obtain ⟨after, hafter⟩ := Text.exists_tidy? h.after.indents
  have hfunctions : (ofSource .go d.source).functions = [d.methodText.span 0] := by
    rw [d.source_eq]
    exact MethodText.functions_text h.methodText
  have hwhole : Whole (glyphs .go d.source) := by
    rw [d.source_eq]
    exact (MethodText.regular_text h.methodText).closed.whole
  obtain ⟨imports, himports⟩ := exists_imports? hwhole.unsplit
  have hreceiver := DocumentedMethod.receiverAfter?_source h
  -- whoever asks for methods asks for those of the one receiver type
  have hwanted : client?.or ((ofSource .go d.source).firstReceiverType? [d.methodText.span 0]) =
      some (.ofList d.type) := by
    cases client? with
    | none =>
      unfold firstReceiverType?
      rw [Option.none_or, List.findSome?_cons, hreceiver, Option.map_some]
    | some w => rw [Option.some_or, hclient w rfl]
  have hcomments : (ofSource .go d.source).commentsBetween ((d.methodText.span 0).closed + 1)
      (ofSource .go d.source).sourceSize = [] := by
    have hsize : (ofSource .go d.source).sourceSize = (d.methodText.span 0).closed + 1 := by
      rw [MethodText.closed_span, Nat.zero_add, ← d.source_eq, sourceSize, source_ofSource]
    unfold commentsBetween slice Text.cut
    rw [hsize, Nat.sub_self, Text.takeBytes]
    rfl
  have hread := DocumentedMethod.readFunction?_source h hbefore hafter
  have hfound (fragment : String) : (Outcome.found (d.found before after)).ofType
      (some (.ofList d.type)) fragment = .found (d.found before after) :=
    if_pos rfl
  have hfunctions? : (ofSource .go d.source).readFunctions? primitives (some (.ofList d.type))
      [d.methodText.span 0] = some [⟨.found (d.found before after), []⟩] := by
    simp only [readFunctions?, hread, hcomments, hfound, Option.bind_eq_bind, Option.bind_some,
      List.head?_nil, Option.map_none, Option.getD_none, Option.pure_def]
  obtain ⟨file, hfile, hheld⟩ : ∃ file, ClientFile.read? ⟨primitives, client?⟩ (.ofList d.source) =
      some file ∧ file.functions = [⟨.found (d.found before after), []⟩] := by
    obtain ⟨file, hfile, hheld, -⟩ := @ClientFile.exists_read? ⟨primitives, client?⟩
      (.ofList d.source) [⟨.found (d.found before after), []⟩] imports
      (by rw [String.toList_ofList, hfunctions, hwanted]; exact hfunctions?)
      (by rw [String.toList_ofList]; exact himports)
    exact ⟨file, hfile, hheld⟩
  exact ⟨file, before, after, hfile, hbefore, hafter, hheld⟩

/-- A method with one statement before its call and one after it. -/
def DocumentedMethod.height : DocumentedMethod where
  receiver := ['c']
  type := "Client".toList
  name := "Height".toList
  params := "id string".toList
  result := ['n']
  resultType := "*int".toList
  field := "core".toList
  primitive := "Call".toList
  args := ["\"height\"".toList, "id".toList]
  before := "\tlog(id) // (".toList ++ ['\n']
  after := "\tif1()".toList

theorem DocumentedMethod.wf_height : height.Wf ["CallRaw", "Call"] := by
  have hregular {cs : List Char} (hsettles : settles cs = true)
      (hnested : WellNested (Text.bytes (mask .go cs))) : Regular cs :=
    ⟨closed_of_settles hsettles, hnested⟩
  have hargument {cs : List Char} (hcs : cs = "\"height\"".toList ∨ cs = "id".toList) :
      Argument cs := by
    rcases hcs with rfl | rfl
    all_goals
      refine ⟨⟨hregular ?_ ?_, ?_⟩, ?_, ?_, ?_, ?_⟩ <;> decide +kernel
  have hstatements {cs : List Char} (hcs : cs = height.before ∨ cs = height.after) :
      Statements ["CallRaw", "Call"] cs := by
    rcases hcs with rfl | rfl
    all_goals
      refine ⟨hregular ?_ ?_, ?_, ?_, ?_⟩ <;> decide +kernel
  exact {
    receiver := by decide +kernel
    type := by decide +kernel
    name := by decide +kernel
    result := by decide +kernel
    field := by decide +kernel
    primitive := by decide +kernel
    names := by decide +kernel
    params := hregular (by decide +kernel) (by decide +kernel)
    resultType := ⟨hregular (by decide +kernel) (by decide +kernel), by decide +kernel⟩
    resultType_not_blank := by decide +kernel
    resultType_one_line := by decide +kernel
    args_ne_nil := by decide +kernel
    args := fun a ha => hargument (by simpa [height] using ha)
    before := hstatements (.inl rfl)
    after := hstatements (.inr rfl) }

theorem ClientFile.read?_height :
    DocumentedMethod.height.Wf ["CallRaw", "Call"] ∧
      ∃ file before after, ClientFile.read? ⟨["CallRaw", "Call"], some "Client"⟩
        (.ofList DocumentedMethod.height.source) = some file ∧
        Text.tidy? DocumentedMethod.height.before = some before ∧
        Text.tidy? DocumentedMethod.height.after = some after ∧
        file.functions = [⟨.found (DocumentedMethod.height.found before after), []⟩] :=
  ⟨DocumentedMethod.wf_height, ClientFile.read?_of_documented DocumentedMethod.wf_height
    fun w hw => by rw [← Option.some.inj hw]; decide +kernel⟩

end RpcBindings
