import RpcBindings.Proofs.Client.Entries
import RpcBindings.Proofs.Generated.Tally
import RpcBindings.Proofs.Go.ClauseCut

/-!
The one caller type of a batch caller.

A client file is read for the methods of one receiver type (`Masked.Wants`). Main statement
(`GeneratedFile.batchCaller_one_type`): a file that is generated declares one caller type, and every
method that it holds has that type for its receiver; methods of other receiver types are left out and
say so. There is no such type exactly when none is asked for and no function has a receiver that can be
read, and then the run says so too, as long as the import clauses can be cut out.
-/

namespace RpcBindings

/-! ## Texts that name a caller -/

namespace Go

/-- A text has a line. -/
def HasLine (text line : String) : Prop :=
  ∃ lines, text = "\n".intercalate lines ∧ line ∈ lines

/-- A text declares a type for callers, with a constructor and with the method that sends the queue. -/
structure DeclaresCaller (text caller : String) : Prop where
  type : HasLine text ("type " ++ caller ++ " struct \x7b")
  constructor : ∃ params, HasLine text ("func New" ++ caller ++ params ++ ") *" ++ caller ++ " \x7b")
  made : ∃ fields, HasLine text ("\treturn &" ++ caller ++ fields)
  execute : HasLine text ("func (b *" ++ caller ++ ") Execute() ([]error, error) \x7b")

/-- A text is a method of a type. -/
def HasReceiver (text receiver type : String) : Prop :=
  ∃ rest, text = "func (" ++ receiver ++ " *" ++ type ++ ") " ++ rest

/-- The lines of the declarations of a caller. -/
def callerLines (s : BulkSettings) (clientType : String) : List String :=
  let caller := s.callerName clientType
  let queue := s.queueField ++ " *[]" ++ s.queueElemType
  ["// " ++ caller ++ " queues " ++ clientType ++ " calls and sends them in one batch request.",
    "type " ++ caller ++ " struct \x7b",
    "\tcaller " ++ s.callerCoreType,
    "\t" ++ queue,
    "\x7d",
    "",
    "// New" ++ caller ++ " creates a " ++ caller ++ " appending to " ++ s.queueField ++ ".",
    "func New" ++ caller ++ ("(caller " ++ s.callerCoreType ++ ", " ++ queue) ++ ") *" ++ caller ++
      " \x7b",
    "\treturn &" ++ caller ++ ("\x7bcaller, " ++ s.queueField ++ "\x7d"),
    "\x7d",
    "",
    "// Execute sends all queued calls in one batch request.",
    "func (b *" ++ caller ++ ") Execute() ([]error, error) \x7b",
    "\treturn " ++ s.executeFn ++ "(b.caller, b." ++ s.queueField ++ ")",
    "\x7d"]

theorem callerText_eq (s : BulkSettings) (clientType : String) :
    callerText s clientType = "\n".intercalate (callerLines s clientType) := by
  unfold callerText callerLines
  extract_lets caller queue
  rw [show (" calls and sends them in one batch request.\n" : String) =
      " calls and sends them in one batch request." ++ "\n" from rfl,
    show (" struct \x7b\n" : String) = " struct \x7b" ++ "\n" from rfl,
    show ("\x7d\n" : String) = "\x7d" ++ "\n" from rfl, show (".\n" : String) = "." ++ "\n" from rfl,
    show (" \x7b\n" : String) = " \x7b" ++ "\n" from rfl,
    show ("// Execute sends all queued calls in one batch request.\n" : String) =
      "// Execute sends all queued calls in one batch request." ++ "\n" from rfl,
    show (") Execute() ([]error, error) \x7b\n" : String) =
      ") Execute() ([]error, error) \x7b" ++ "\n" from rfl, show (")\n" : String) = ")" ++ "\n" from rfl]
  simp only [String.append_assoc, String.intercalate_cons_cons, String.intercalate_singleton,
    String.empty_append, -String.reduceAppend]

theorem declaresCaller_callerText (s : BulkSettings) (clientType : String) :
    DeclaresCaller (callerText s clientType) (s.callerName clientType) := by
  have hline {k : Nat} {line : String} (h : (callerLines s clientType)[k]? = some line) :
      HasLine (callerText s clientType) line :=
    ⟨_, callerText_eq s clientType, List.mem_of_getElem? h⟩
  exact ⟨hline (k := 1) rfl, ⟨_, hline (k := 7) rfl⟩, ⟨_, hline (k := 8) rfl⟩, hline (k := 12) rfl⟩

theorem hasReceiver_batchText (s : BulkSettings) (m : SyncMethod) :
    HasReceiver (batchText s m) m.receiverName (s.callerName m.receiverType) := by
  unfold batchText
  extract_lets queue
  refine ⟨m.signature ++ " (" ++ m.batchedType.text ++ ", *error) \x7b\n" ++
    "\tresult := " ++ allocation m.batchedType ++ "\n" ++ "\terr := new(error)\n\n" ++
    indented m.before ++ "\t" ++ queue ++ " = append(" ++ queue ++ ", " ++ s.descriptorFn ++
    "(result, " ++ m.callArgs ++ "))\n" ++ indented m.after ++ "\n\treturn result, err\n\x7d", ?_⟩
  simp only [String.append_assoc]

end Go

namespace Masked

variable {m : Masked} {primitives : List String} {clientType : String}

/-! ## The wanted type -/

/-- The receiver type whose methods a file is read for: the one that is asked for, or else the one of
the first function whose receiver can be read. -/
def Wants (m : Masked) (clientType? : Option String) (clientType : String) : Prop :=
  clientType? = some clientType ∨
    clientType? = none ∧ ∃ before f after receiver, m.functions = before ++ f :: after ∧
      (∀ g ∈ before, m.receiverAfter? g.head = none) ∧
      m.receiverAfter? f.head = some receiver ∧ receiver.type = clientType

theorem wants_iff {clientType? : Option String} :
    m.Wants clientType? clientType ↔
      clientType?.or (m.firstReceiverType? m.functions) = some clientType := by
  unfold Wants firstReceiverType?
  rw [Option.or_eq_some_iff, List.findSome?_eq_some_iff]
  simp only [Option.map_eq_some_iff, Option.map_eq_none_iff]
  refine or_congr_right (and_congr_right fun _ => ?_)
  constructor
  · rintro ⟨before, f, after, receiver, hfs, hbefore, hreceiver, htype⟩
    exact ⟨before, f, after, hfs, ⟨receiver, hreceiver, htype⟩, hbefore⟩
  · rintro ⟨before, f, after, hfs, ⟨receiver, hreceiver, htype⟩, hbefore⟩
    exact ⟨before, f, after, receiver, hfs, hbefore, hreceiver, htype⟩

theorem firstReceiverType?_eq_none {fs : List FunctionSpan} :
    m.firstReceiverType? fs = none ↔ ∀ f ∈ fs, m.receiverAfter? f.head = none := by
  unfold firstReceiverType?
  rw [List.findSome?_eq_none_iff]
  exact forall₂_congr fun f _ => Option.map_eq_none_iff

/-- A function without a receiver is left out without a look at its body. -/
theorem isSome_readFunction?_of_no_receiver {f : FunctionSpan}
    (h : m.receiverAfter? f.head = none) : (m.readFunction? primitives f).isSome = true := by
  unfold readFunction?
  rw [h]
  rfl

/-- What becomes of a function in a file that is read for one receiver type. -/
inductive ReadFor (m : Masked) (primitives : List String) (clientType : String) :
    FunctionSpan → ClientFunction → Prop
  /-- A method of the type is kept. -/
  | kept {f : FunctionSpan} {g : ClientFunction} {method : SyncMethod}
      (read : m.readFunction? primitives f = some (.found method))
      (type : method.receiverType = clientType) (outcome : g.outcome = .found method) :
      ReadFor m primitives clientType f g
  /-- A method of another type is left out, and the reason names both types. -/
  | other {f : FunctionSpan} {g : ClientFunction} {method : SyncMethod} {d : Diagnostic}
      (read : m.readFunction? primitives f = some (.found method))
      (type : method.receiverType ≠ clientType) (outcome : g.outcome = .skipped d)
      (message : d.reason.message = "receiver is " ++ method.receiverType ++ ", not " ++ clientType) :
      ReadFor m primitives clientType f g
  /-- What is no method of the documented shape is left out. -/
  | unread {f : FunctionSpan} {g : ClientFunction} {d : Diagnostic}
      (read : m.readFunction? primitives f = some (.skipped d)) (outcome : g.outcome = .skipped d) :
      ReadFor m primitives clientType f g

theorem readFor_of_outcomeOf? {f : FunctionSpan} {g : ClientFunction}
    (h : m.outcomeOf? primitives (some clientType) f = some g.outcome) :
    m.ReadFor primitives clientType f g := by
  obtain ⟨o, ho, houtcome⟩ := Option.map_eq_some_iff.1 h
  cases o with
  | skipped d => exact .unread ho houtcome.symm
  | found method =>
    by_cases htype : clientType = method.receiverType
    · refine .kept ho htype.symm ?_
      rw [← houtcome]
      exact if_pos htype
    · refine .other (d := ⟨.clientFunction, some method.title,
        .otherReceiver method.receiverType clientType, .ofList (m.spanText f.whole)⟩)
        ho (Ne.symm htype) ?_ rfl
      rw [← houtcome]
      exact if_neg htype

end Masked

/-- What is kept has the wanted type. -/
theorem Outcome.receiverType_of_ofType {o : Outcome SyncMethod} {wanted fragment : String}
    {method : SyncMethod} (h : o.ofType (some wanted) fragment = .found method) :
    method.receiverType = wanted := by
  cases o with
  | skipped d => exact absurd h (by simp [ofType])
  | found method' =>
    simp only [ofType] at h
    split at h
    · rename_i htype
      rw [← Outcome.found.inj h, htype]
    · exact absurd h (by simp)

/-- The receiver type that a file is read for. -/
theorem ClientFile.clientType?_of_read? {options : ClientOptions} {source : String}
    {client : ClientFile} (h : ClientFile.read? options source = some client) :
    client.clientType? = options.clientType?.or ((Masked.ofSource .go source.toList).firstReceiverType?
      (Masked.ofSource .go source.toList).functions) :=
  (ClientFile.isReadFrom h).clientType?

namespace GeneratedFile

open Masked

variable {s : Settings} {clientType? : Option String} {source : String}

/-- There is no receiver type to read for exactly when none is asked for and no function has one. -/
theorem batchCaller_eq_noReceiver_iff :
    batchCaller s clientType? source = .error .noReceiver ↔ clientType? = none ∧
      (∀ f ∈ (ofSource .go source.toList).functions,
        (ofSource .go source.toList).receiverAfter? f.head = none) ∧
      ∀ clause ∈ (ofSource .go source.toList).importClauses,
        clause.stop ≤ (ofSource .go source.toList).sourceSize := by
  have hclauses : (∀ clause ∈ (ofSource .go source.toList).importClauses,
      clause.stop ≤ (ofSource .go source.toList).sourceSize) ↔
        (ofSource .go source.toList).imports?.isSome = true := by
    rw [← not_iff_not, Option.not_isSome_iff_eq_none, imports?_eq_none_iff]
    simp only [not_forall, exists_prop, Nat.not_le]
  have hwanted (client : ClientFile)
      (h : ClientFile.read? ⟨s.bulk.primitives, clientType?⟩ source = some client) :
      client.clientType? = none ↔ clientType? = none ∧
        ∀ f ∈ (ofSource .go source.toList).functions,
          (ofSource .go source.toList).receiverAfter? f.head = none := by
    rw [ClientFile.clientType?_of_read? h, Option.or_eq_none_iff, firstReceiverType?_eq_none]
  rw [hclauses, batchCaller_eq_error_iff]
  simp only [reduceCtorEq, false_and, false_or, true_and, or_false]
  constructor
  · rintro ⟨client, hread, htype⟩
    obtain ⟨hasked, hfunctions⟩ := (hwanted client hread).1 htype
    exact ⟨hasked, hfunctions, ((ClientFile.isSome_read? _ source).1 (by rw [hread]; rfl)).2⟩
  · rintro ⟨hasked, hfunctions, himports⟩
    obtain ⟨client, hread⟩ := Option.isSome_iff_exists.1
      ((ClientFile.isSome_read? ⟨s.bulk.primitives, clientType?⟩ source).2
        ⟨fun f hf => isSome_readFunction?_of_no_receiver (hfunctions f hf), himports⟩)
    exact ⟨client, hread, (hwanted client hread).2 ⟨hasked, hfunctions⟩⟩

/-- A batch caller has one caller type. It is declared once, and it receives every method that is
generated; methods of other client types are left out. The run ends for want of a type exactly when
none is asked for and no function has a receiver, unless a clause of imports cannot be cut out. -/
theorem batchCaller_one_type (s : Settings) (clientType? : Option String) (source : String) :
    (∀ file, batchCaller s clientType? source = .ok file →
      ∃ client clientType methods,
        ClientFile.read? ⟨s.bulk.primitives, clientType?⟩ source = some client ∧
        (ofSource .go source.toList).Wants clientType? clientType ∧
        file.declarations =
          Go.callerText s.bulk clientType :: (methods ++ extraDeclarations s.bulk) ∧
        Go.DeclaresCaller (Go.callerText s.bulk clientType) (s.bulk.callerName clientType) ∧
        MethodsInStep (Go.batchText s.bulk) client.leadingComments client.functions methods
          file.diagnostics file.generated ∧
        List.Forall₂ ((ofSource .go source.toList).ReadFor s.bulk.primitives clientType)
          (ofSource .go source.toList).functions client.functions ∧
        ∀ g ∈ client.functions, ∀ method, g.outcome = .found method →
          method.receiverType = clientType ∧
          Go.HasReceiver (Go.batchText s.bulk method) method.receiverName
            (s.bulk.callerName clientType)) ∧
    (batchCaller s clientType? source = .error .noReceiver ↔ clientType? = none ∧
      (∀ f ∈ (ofSource .go source.toList).functions,
        (ofSource .go source.toList).receiverAfter? f.head = none) ∧
      ∀ clause ∈ (ofSource .go source.toList).importClauses,
        clause.stop ≤ (ofSource .go source.toList).sourceSize) := by
  refine ⟨fun file hfile => ?_, batchCaller_eq_noReceiver_iff⟩
  obtain ⟨client, clientType, header, hread, htype, -, rfl⟩ := caller_of_run hfile
  have hwants : (ofSource .go source.toList).Wants clientType? clientType := by
    rw [wants_iff, ← ClientFile.clientType?_of_read? hread, htype]
  have hentries : List.Forall₂ ((ofSource .go source.toList).ReadFor s.bulk.primitives clientType)
      (ofSource .go source.toList).functions client.functions := by
    refine (ClientFile.forall₂_functions hread).imp fun f g hg => readFor_of_outcomeOf? ?_
    rwa [htype] at hg
  refine ⟨client, clientType, _, hread, hwants, rfl, Go.declaresCaller_callerText s.bulk clientType,
    methodsInStep_functions s.bulk client.leadingComments client.functions, hentries, ?_⟩
  intro g hg method hmethod
  obtain ⟨k, hk⟩ := List.mem_iff_getElem?.1 hg
  obtain ⟨f, o, -, -, houtcome⟩ := ClientFile.getElem?_functions hread hk
  rw [htype, hmethod] at houtcome
  have hkept : method.receiverType = clientType := Outcome.receiverType_of_ofType houtcome.symm
  exact ⟨hkept, hkept ▸ Go.hasReceiver_batchText s.bulk method⟩

/-- A constructor, a method, and a method of another type. -/
def twoClients : String :=
  "func NewC() *C \x7b\n\treturn nil\n\x7d\n" ++
  "func (c *C) A(x T) (y T, err error) \x7b\n\terr = c.CallRPC(&y, \"a\", x)\n\treturn\n\x7d\n" ++
  "func (d *D) B() (y T, err error) \x7b\n\terr = d.CallRPC(&y, \"b\")\n\treturn\n\x7d\n"

theorem batchCaller_one_type_twoClients :
    ∃ file, ∃ client : ClientFile, ∃ methods, batchCaller {} none twoClients = .ok file ∧
      file.declarations = Go.callerText {} "C" :: (methods ++ extraDeclarations {}) ∧
      MethodsInStep (Go.batchText {}) client.leadingComments client.functions methods
        file.diagnostics file.generated ∧
      List.Forall₂ ((ofSource .go twoClients.toList).ReadFor ({} : Settings).bulk.primitives "C")
        (ofSource .go twoClients.toList).functions client.functions ∧
      file.generated = 1 ∧ client.functions.length = 3 := by
  have hclient : (ClientFile.read? ⟨({} : Settings).bulk.primitives, none⟩ twoClients).map
      (fun client => (client.clientType?, client.functions.length)) = some (some "C", 3) := by
    decide +kernel
  have hmade : (callerParts? {} none twoClients).map (fun parts =>
      (parts.1.generated, parts.2.all fun spec => (Go.Import.ofSpec spec).name != "")) =
        some (1, true) := by decide +kernel
  obtain ⟨file, hfile, hgenerated⟩ := exists_batchCaller hmade
  obtain ⟨client, clientType, methods, hread, hwants, hdecls, -, hstep, hentries, -⟩ :=
    (batchCaller_one_type {} none twoClients).1 file hfile
  rw [hread, Option.map_some, ClientFile.clientType?_of_read? hread, wants_iff.1 hwants] at hclient
  simp only [Option.some.injEq, Prod.mk.injEq] at hclient
  obtain ⟨rfl, hlength⟩ := hclient
  exact ⟨file, client, methods, hfile, hdecls, hstep, hentries, hgenerated, hlength⟩

/-- An import clause that runs into an open literal. -/
def openImport : String := "import\n\"é"

/-- No function, and so no receiver, and yet the run does not say so. -/
theorem noReceiver_unsaid : (ofSource .go openImport.toList).functions = [] ∧
    batchCaller {} none openImport = .error .brokenCut := by
  constructor <;> decide +kernel

end GeneratedFile

end RpcBindings
