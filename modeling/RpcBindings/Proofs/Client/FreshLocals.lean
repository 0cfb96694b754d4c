import RpcBindings.Proofs.Client.KeptLiterals
import RpcBindings.Proofs.Go.ParamNames

/-!
The local variables of the batched form of a method.

The batched form declares `result` and `err` in front of the statements that it keeps, and takes its
receiver and its signature over from the method. What the method declares in its source is distinct
where Go accepts it, and one of these names is `err`. Main statement: so the local variables are
neither the receiver nor a parameter iff none of these is called `result`
(`ClientFile.locals_fresh_iff`).
-/

namespace RpcBindings

namespace Masked

/-! ## The list of a signature -/

/-- What stands between the parentheses of a signature that ends with its parameters. -/
def paramList (signature : List Char) : List Char :=
  let m := ofSource .go signature
  m.slice (m.bytes.idxOf '('.toUInt8 + 1) (Text.byteLength signature - 1)

section Signature

variable {source : List Char} {primitives : List String} {f : FunctionSpan} {p : MethodParts}
  {s : SyncMethod} {i j k : Nat}

/-- A part of the source is masked part by part. -/
theorem mask_slice_append (hi : (ofSource .go source).InCode i) (hj : (ofSource .go source).InCode j)
    (hk : (ofSource .go source).InCode k) (hij : i ≤ j) (hjk : j ≤ k) :
    mask .go ((ofSource .go source).slice i k) =
      mask .go ((ofSource .go source).slice i j) ++ mask .go ((ofSource .go source).slice j k) := by
  rw [← mask_slice hi hk (Nat.le_trans hij hjk), ← mask_slice hi hj hij, ← mask_slice hj hk hjk]
  exact codeSlice_append hi.cutsAt.2 hj.cutsAt.2 hk.cutsAt.2 hij hjk

/-- Between two offsets in code the source and its masked copy have as many bytes as they are apart. -/
theorem byteLength_slice (hi : (ofSource .go source).InCode i) (hj : (ofSource .go source).InCode j)
    (hij : i ≤ j) : i + Text.byteLength ((ofSource .go source).slice i j) = j ∧
      i + (Text.bytes (mask .go ((ofSource .go source).slice i j))).length = j := by
  obtain ⟨-, t, -, w, -, -, hj', hslice, hend, -, -⟩ := hi.exists_between hj hij
  rw [hslice, Text.length_bytes, (whole_of_endMode hend).unsplit.byteLength_mask]
  exact ⟨hj'.symm, hj'.symm⟩

/-- No parenthesis shows between the beginning of the name of a method and its parameters. -/
theorem paren_not_mem_title (h : Segmented (ofSource .go source) primitives f p s) :
    '('.toUInt8 ∉ (ofSource .go source).byteSlice p.name.start p.params.start := by
  have horder := h.in_order
  have hcuts := h.boundaries
  simp only [MethodParts.cuts, List.forall_mem_cons] at hcuts
  obtain ⟨-, -, -, -, -, hname, hopen, -⟩ := hcuts
  rw [byteSlice_append (show p.name.start ≤ p.name.stop by omega) (by omega),
    ← bytes_codeSlice hname hopen (by omega), List.mem_append]
  rintro (hmem | hmem)
  · exact absurd (isWordByte_of_mem_identAt? h.name_eq hmem) (by decide)
  · obtain ⟨c, hc, hsize, hbyte⟩ := Text.exists_of_mem_bytes hmem (by decide)
    obtain rfl := Text.eq_of_toUInt8_eq hsize (by decide) hbyte
    exact absurd (List.all_eq_true.1 h.params_blank '(' hc) (by decide)

/-- The signature of a method is its name with what follows it, and the list between parentheses. -/
theorem signature_text (h : Segmented (ofSource .go source) primitives f p s) :
    s.signature.toList = (ofSource .go source).slice p.name.start p.params.start ++ ['('] ++
      (ofSource .go source).slice (p.params.start + 1) p.params.stop ++ [')'] := by
  have horder := h.in_order
  obtain ⟨hname, hopen, hstart, hstop, hend⟩ := inCode_signature h
  have hcloses := hasChar_closer (d := .paren) h.params_opens h.params_closes
  rw [h.signature_eq,
    slice_append hname.cutsAt hstop.cutsAt hend.cutsAt (by omega) (Nat.le_succ _),
    slice_append hname.cutsAt hstart.cutsAt hstop.cutsAt (by omega) (by omega),
    slice_append hname.cutsAt hopen.cutsAt hstart.cutsAt (by omega) (Nat.le_succ _),
    slice_of_hasChar h.params_opens (by decide) (by decide),
    slice_of_hasChar hcloses (by decide) (by decide)]
  rfl

/-- The first parenthesis that shows in a signature is the one that opens the list. -/
theorem idxOf_paren_signature (h : Segmented (ofSource .go source) primitives f p s) :
    (ofSource .go s.signature.toList).bytes.idxOf '('.toUInt8 =
      Text.byteLength ((ofSource .go source).slice p.name.start p.params.start) := by
  have horder := h.in_order
  obtain ⟨hname, hopen, hstart, -, hend⟩ := inCode_signature h
  have hnone := paren_not_mem_title h
  rw [← bytes_mask_slice hname hopen (by omega)] at hnone
  obtain ⟨hlength, hbytes⟩ := byteLength_slice hname hopen (by omega)
  have hparen : Text.bytes (mask .go ['(']) = ['('.toUInt8] := by decide
  show (Text.bytes (mask .go s.signature.toList)).idxOf '('.toUInt8 = _
  rw [h.signature_eq, mask_slice_append hname hopen hend (by omega) (by omega),
    mask_slice_append hopen hstart hend (Nat.le_succ _) (by omega),
    slice_of_hasChar h.params_opens (by decide) (by decide), Text.bytes_append, Text.bytes_append,
    List.idxOf_append_of_notMem hnone, hparen, List.singleton_append, List.idxOf_cons_self]
  omega

/-- The list of the signature of a method is the one between its parentheses in the source. -/
theorem paramList_signature (h : Segmented (ofSource .go source) primitives f p s) :
    paramList s.signature.toList =
      (ofSource .go source).slice (p.params.start + 1) p.params.stop := by
  unfold paramList
  extract_lets m
  rw [idxOf_paren_signature h]
  show Text.cut _ _ s.signature.toList = _
  rw [signature_text h]
  have hcut := Text.cut_append
    ((ofSource .go source).slice p.name.start p.params.start ++ ['('])
    ((ofSource .go source).slice (p.params.start + 1) p.params.stop) [')']
  simp only [Text.byteLength_append] at hcut ⊢
  exact hcut

end Signature

end Masked

namespace Go

open Masked

/-! ## The beginning of the batched form -/

/-- The names of the parameters of a signature. -/
def signatureParams (signature : String) : List String :=
  paramNames (paramList signature.toList)

/-- A batched form as it begins: its head, and the variables that it declares first. -/
structure BatchStart where
  receiver : String
  receiverType : String
  signature : String
  resultType : String
  /-- Each local variable, with the expression for its value. -/
  locals : List (String × String)

namespace BatchStart

def text (h : BatchStart) : String :=
  "func (" ++ h.receiver ++ " *" ++ h.receiverType ++ ") " ++ h.signature ++
    " (" ++ h.resultType ++ ", *error) \x7b\n" ++
  String.join (h.locals.map fun v => "\t" ++ v.1 ++ " := " ++ v.2 ++ "\n")

/-- The local variables are neither the receiver nor a parameter. -/
def Fresh (h : BatchStart) : Prop :=
  ∀ v ∈ h.locals, v.1 ∉ h.receiver :: signatureParams h.signature

instance (h : BatchStart) : Decidable h.Fresh :=
  inferInstanceAs (Decidable (∀ v ∈ h.locals, v.1 ∉ h.receiver :: signatureParams h.signature))

end BatchStart

/-- The batched form of a method as it begins. -/
def batchStart (b : BulkSettings) (m : SyncMethod) : BatchStart where
  receiver := m.receiverName
  receiverType := b.callerName m.receiverType
  signature := m.signature
  resultType := m.batchedType.text
  locals := [("result", allocation m.batchedType), ("err", "new(error)")]

/-- Names can be declared in one scope: no two are the same, blank ones apart. -/
def DeclarableTogether (names : List String) : Prop :=
  (names.filter (· != "_")).Nodup

instance (names : List String) : Decidable (DeclarableTogether names) :=
  inferInstanceAs (Decidable (names.filter (· != "_")).Nodup)

theorem batchStart_isPrefix (b : BulkSettings) (m : SyncMethod) :
    (batchStart b m).text.toList <+: (batchText b m).toList := by
  have hlocals :
      String.join ((batchStart b m).locals.map fun v => "\t" ++ v.1 ++ " := " ++ v.2 ++ "\n") =
        "\tresult := " ++ allocation m.batchedType ++ "\n" ++ "\terr := new(error)\n" := by
    simp [batchStart, String.join]
  have hhead : batchHead b m = (batchStart b m).text ++ "\n" := by
    unfold batchHead BatchStart.text
    rw [hlocals]
    show _ ++ _ ++ _ ++ _ ++ ("\terr := new(error)\n" ++ "\n") = _
    simp only [batchStart, String.append_assoc]
  rw [batchText_eq, hhead]
  simp only [String.toList_append, List.append_assoc]
  exact List.prefix_append _ _

/-- Beside a name that is declared behind them no names are that name. -/
theorem DeclarableTogether.not_mem {names others : List String} {name : String}
    (h : DeclarableTogether (names ++ others)) (hname : name ∈ others) (hblank : name ≠ "_") :
    name ∉ names := by
  unfold DeclarableTogether at h
  rw [List.filter_append] at h
  have hkept : (name != "_") = true := bne_iff_ne.2 hblank
  obtain ⟨-, -, hapart⟩ := List.nodup_append.1 h
  intro hmem
  exact hapart name (List.mem_filter.2 ⟨hmem, hkept⟩) name (List.mem_filter.2 ⟨hname, hkept⟩) rfl

theorem fresh_batchStart (b : BulkSettings) (m : SyncMethod) :
    (batchStart b m).Fresh ↔ "result" ∉ m.receiverName :: signatureParams m.signature ∧
      "err" ∉ m.receiverName :: signatureParams m.signature := by
  unfold BatchStart.Fresh batchStart
  rw [List.forall_mem_cons, List.forall_mem_singleton]

/-- Where the names that a method declares are apart, none of them is `err` but the error. -/
theorem fresh_batchStart_of_apart {m : SyncMethod} (b : BulkSettings)
    (h : DeclarableTogether (m.receiverName :: signatureParams m.signature ++ [m.resultName, "err"])) :
    (batchStart b m).Fresh ↔ "result" ∉ m.receiverName :: signatureParams m.signature :=
  (fresh_batchStart b m).trans (and_iff_left (h.not_mem (by simp) (by decide)))

end Go

namespace ClientFile

open Masked Go

/-- The batched form of every method that is found in a client file begins with the receiver and the
signature of the method, which declares the parameters that it has in the source, and with the local
variables `result` and `err`. Of parameters that are written as names and types the names are those.
The local variables are neither the receiver nor a parameter iff none of them has one of the two names;
and when the names that the method declares are apart, iff none is called `result`. -/
theorem locals_fresh_iff {options : ClientOptions} {source : String} {file : ClientFile}
    {k : Nat} {g : ClientFunction} {s : SyncMethod}
    (hfile : ClientFile.read? options source = some file) (hg : file.functions[k]? = some g)
    (hs : g.outcome = .found s) :
    ∃ f p, (ofSource .go source.toList).functions[k]? = some f ∧
      Segmented (ofSource .go source.toList) options.primitives f p s ∧
      paramList s.signature.toList =
        (ofSource .go source.toList).slice (p.params.start + 1) p.params.stop ∧
      (∀ ps : List ParamText, ListText (paramList s.signature.toList) ps →
        signatureParams s.signature = ps.map (·.name)) ∧
      ∀ b : BulkSettings, (batchStart b s).text.toList <+: (batchText b s).toList ∧
        ((batchStart b s).Fresh ↔ "result" ∉ s.receiverName :: signatureParams s.signature ∧
          "err" ∉ s.receiverName :: signatureParams s.signature) ∧
        (DeclarableTogether (s.receiverName :: signatureParams s.signature ++ [s.resultName, "err"]) →
          ((batchStart b s).Fresh ↔ "result" ∉ s.receiverName :: signatureParams s.signature)) := by
  obtain ⟨f, o, hf, ho, hout⟩ := ClientFile.getElem?_functions hfile hg
  obtain rfl := found_of_ofType (hout.symm.trans hs)
  obtain ⟨p, hp⟩ := exists_segmented (List.mem_of_getElem? hf) ho
  exact ⟨f, p, hf, hp, paramList_signature hp, fun _ hlist => hlist.paramNames_eq, fun b =>
    ⟨batchStart_isPrefix b s, fresh_batchStart b s, fresh_batchStart_of_apart b⟩⟩

/-- A method whose parameters stand on several lines, with a comment, a function and the rest of the
arguments. -/
def paramsOnLines : String :=
  "func (c *C) M(\n\ta, b []int, // the result\n\tf func(result int) T,\n\trest ...string,\n) " ++
  "(result T, err error) \x7b\n\terr = c.CallRPC(&result, \"m\", a, b, f, rest)\n\treturn\n\x7d\n"

theorem locals_fresh_iff_paramsOnLines :
    ∃ (file : ClientFile) (g : ClientFunction) (s : SyncMethod),
      ClientFile.read? ⟨["CallRPC"], none⟩ paramsOnLines = some file ∧
      file.functions[0]? = some g ∧ g.outcome = .found s ∧
      signatureParams s.signature = ["a", "b", "f", "rest"] ∧
      DeclarableTogether (s.receiverName :: signatureParams s.signature ++ [s.resultName, "err"]) ∧
      (batchStart {} s).Fresh := by
  have hread : (((ClientFile.read? ⟨["CallRPC"], none⟩ paramsOnLines).bind
      (·.functions[0]?)).bind (·.outcome.found?)).map
        (fun s => (s.receiverName, signatureParams s.signature, s.resultName)) =
      some ("c", ["a", "b", "f", "rest"], "result") := by
    decide +kernel
  obtain ⟨s, hs, hnames⟩ := Option.map_eq_some_iff.1 hread
  obtain ⟨g, hg, hs⟩ := Option.bind_eq_some_iff.1 hs
  obtain ⟨file, hfile, hg⟩ := Option.bind_eq_some_iff.1 hg
  have hs := eq_found_of_found? hs
  obtain ⟨hreceiver, hparams, hresult⟩ : s.receiverName = "c" ∧
      signatureParams s.signature = ["a", "b", "f", "rest"] ∧ s.resultName = "result" := by
    simpa using hnames
  have hapart : DeclarableTogether
      (s.receiverName :: signatureParams s.signature ++ [s.resultName, "err"]) := by
    rw [hreceiver, hparams, hresult]
    decide
  obtain ⟨f, p, -, -, -, -, hstart⟩ := locals_fresh_iff hfile hg hs
  refine ⟨file, g, s, hfile, hg, hs, hparams, hapart, ((hstart {}).2.2 hapart).2 ?_⟩
  rw [hreceiver, hparams]
  decide

/-- A method with a parameter `result`. -/
def resultParam : String :=
  "func (c *C) M(a, result int) (y T, err error) \x7b\n\terr = c.CallRPC(&y, \"m\", a, result)\n" ++
  "\treturn\n\x7d\n"

/-- Its batched form declares a parameter again. -/
theorem resultParam_not_fresh :
    ∃ (file : ClientFile) (g : ClientFunction) (s : SyncMethod),
      ClientFile.read? ⟨({} : BulkSettings).primitives, none⟩ resultParam = some file ∧
      file.functions[0]? = some g ∧ g.outcome = .found s ∧
      DeclarableTogether (s.receiverName :: signatureParams s.signature ++ [s.resultName, "err"]) ∧
      signatureParams s.signature = ["a", "result"] ∧ ¬(batchStart {} s).Fresh ∧
      batchText {} s = "func (c *BulkCCaller) M(a, result int) (*T, *error) \x7b\n" ++
        "\tresult := new(T)\n\terr := new(error)\n\n" ++
        "\t*c.batchElems = append(*c.batchElems, newBatchElem(result, \"m\", a, result))\n" ++
        "\n\treturn result, err\n\x7d" := by
  have hread : ((ClientFile.read? ⟨({} : BulkSettings).primitives, none⟩ resultParam).bind
      (·.functions[0]?)).bind (·.outcome.found?) =
      some ⟨"c", "C", "M(a, result int)", "y", .named "T", "", some "m", "\"m\", a, result", ""⟩ := by
    decide +kernel
  obtain ⟨g, hg, hs⟩ := Option.bind_eq_some_iff.1 hread
  obtain ⟨file, hfile, hg⟩ := Option.bind_eq_some_iff.1 hg
  exact ⟨file, g, _, hfile, hg, eq_found_of_found? hs, by decide +kernel, by decide +kernel,
    by decide +kernel, by decide +kernel⟩

end ClientFile

end RpcBindings
