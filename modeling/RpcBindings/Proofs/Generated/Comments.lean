import RpcBindings.Proofs.Client.FileCut
import RpcBindings.Proofs.Client.OwnBody
import RpcBindings.Proofs.Generated.CallerType
import RpcBindings.Proofs.Masked.Decoration

/-!
Where the comments between functions stand in a batch caller.

The comments behind a function are kept with it and are written one step later, above the declaration of
the next one. A pass that is about to write the declaration of a function carries the comments that
stand before this function in the source (`functionDeclarations_of_readFunctions?`), which for the first
one are those directly above it (`commentLines_decorationStart`). Main statement:
`GeneratedFile.batchCaller_comments`.
-/

namespace RpcBindings

open Masked

namespace Masked

/-- The comment lines between each of some functions and the next one. -/
def commentsBetweenAll (m : Masked) : List FunctionSpan → List (List String)
  | f :: g :: fs => m.commentsBetween (f.closed + 1) g.start :: m.commentsBetweenAll (g :: fs)
  | _ => []

/-- The comment lines above each of some functions: directly above the first one, and behind the one
before for any other. -/
def commentsAbove (m : Masked) : List FunctionSpan → List (List String)
  | [] => []
  | f :: fs =>
    m.commentsBetween (m.decorationStart f.start) f.start :: m.commentsBetweenAll (f :: fs)

/-- The comment lines behind the last one of some functions. -/
def commentsBehind (m : Masked) (fs : List FunctionSpan) : List String :=
  match fs.getLast? with
  | none => []
  | some f => m.commentsBetween (f.closed + 1) m.sourceSize

/-- The comments above the second one of two functions are those between the two. -/
theorem getElem?_commentsAbove (m : Masked) {fs : List FunctionSpan} {k : Nat} {f g : FunctionSpan}
    (hf : fs[k]? = some f) (hg : fs[k + 1]? = some g) :
    (m.commentsAbove fs)[k + 1]? = some (m.commentsBetween (f.closed + 1) g.start) := by
  cases fs with
  | nil => exact absurd hf (by simp)
  | cons e fs =>
    show (m.commentsBetweenAll (e :: fs))[k]? = _
    induction fs generalizing e k with
    | nil => exact absurd hg (by simp)
    | cons e' fs ih =>
      cases k with
      | zero =>
        obtain rfl := Option.some.inj hf
        obtain rfl := Option.some.inj hg
        rfl
      | succ k => exact ih e' hf hg

end Masked

namespace GeneratedFile

/-! ## Lines above a declaration -/

/-- A text directly below some lines. -/
def below (lines : List String) (text : String) : String :=
  String.join (lines.map (· ++ "\n")) ++ text

/-- Lines as one declaration, and none without lines. -/
def remarks (lines : List String) : List String :=
  if lines = [] then [] else ["\n".intercalate lines]

theorem intercalate_newline (l : String) (ls : List String) :
    "\n".intercalate (l :: ls) ++ "\n" = String.join ((l :: ls).map (· ++ "\n")) := by
  induction ls generalizing l with
  | nil => simp
  | cons l' ls ih =>
    rw [String.intercalate_cons_cons, String.append_assoc, ih, List.map_cons (l := l' :: ls),
      String.join_cons]

theorem withComments_eq_below (comments : List String) (text : String) :
    withComments comments text = below comments text := by
  unfold withComments below
  cases comments with
  | nil => simp
  | cons l ls =>
    rw [if_neg (by simp), intercalate_newline]

/-! ## The pass over the functions -/

theorem functionDeclarations_nil (s : BulkSettings) (comments : List String) :
    functionDeclarations s comments [] = remarks comments := by
  unfold functionDeclarations remarks
  simp only [List.isEmpty_iff]

/-- A pass over functions writes each declaration below the comments that it carries, and what it
carries are the comments behind the function before. -/
theorem functionDeclarations_of_readFunctions? {m : Masked} {primitives : List String}
    {wanted : Option String} {f : FunctionSpan} {fs : List FunctionSpan} {gs : List ClientFunction}
    (h : m.readFunctions? primitives wanted (f :: fs) = some gs) (s : BulkSettings)
    (carried : List String) :
    functionDeclarations s carried gs =
      List.zipWith below (carried :: m.commentsBetweenAll (f :: fs))
        (gs.map fun g => declarationOf (Go.batchText s) g.outcome) ++
      remarks (m.commentsBehind (f :: fs)) := by
  induction fs generalizing f gs carried with
  | nil =>
    obtain ⟨outcome, -, h⟩ := Option.bind_eq_some_iff.1 h
    obtain rfl := Option.some.inj h
    rw [functionDeclarations, functionDeclarations_nil, withComments_eq_below]
    rfl
  | cons f' fs ih =>
    obtain ⟨outcome, -, h⟩ := Option.bind_eq_some_iff.1 h
    obtain ⟨later, hlater, h⟩ := Option.bind_eq_some_iff.1 h
    obtain rfl := Option.some.inj h
    rw [functionDeclarations, withComments_eq_below, ih hlater]
    rfl

/-- The declarations of a client file for its functions: each one stands below the comments above the
function, and behind them the comments behind the last function. -/
theorem functionDeclarations_of_read? {options : ClientOptions} {source : String}
    {client : ClientFile} (h : ClientFile.read? options source = some client) (s : BulkSettings) :
    functionDeclarations s client.leadingComments client.functions =
      List.zipWith below
        ((ofSource .go source.toList).commentsAbove (ofSource .go source.toList).functions)
        (client.functions.map fun g => declarationOf (Go.batchText s) g.outcome) ++
      remarks
        ((ofSource .go source.toList).commentsBehind (ofSource .go source.toList).functions) := by
  have hread := ClientFile.isReadFrom h
  have hfunctions := hread.functions
  rw [hread.leadingComments]
  cases hfs : (ofSource .go source.toList).functions with
  | nil =>
    rw [hfs] at hfunctions
    rw [← Option.some.inj hfunctions]
    exact functionDeclarations_nil s []
  | cons f fs =>
    rw [hfs] at hfunctions
    exact functionDeclarations_of_readFunctions? hfunctions s _

/-! ## Comments of a client file -/

/-- The comments of a client file stand in its batch caller where they stand in the file. Each function
has its declaration, be it the batched method or the comment in its place, directly below the comments
above it: for the first function these are the comments of the comments and attributes directly above
it, among them the run of comments that ends there, and for any other one the comment lines between the
function before and itself. The comment lines behind the last function are one more declaration, if
there are any, and then come the functions of the settings.

The functions are those that the reader finds. They are the functions of the file with their own bodies,
as far as all of these have one and no name before it only ends as `interface` or `struct`. -/
theorem batchCaller_comments {s : Settings} {clientType? : Option String} {source : String}
    {file : GeneratedFile} (h : batchCaller s clientType? source = .ok file) :
    (∃ client clientType,
      ClientFile.read? ⟨s.bulk.primitives, clientType?⟩ source = some client ∧
      client.clientType? = some clientType ∧
      List.Forall₂ (fun f g => (ofSource .go source.toList).outcomeOf? s.bulk.primitives
          client.clientType? f = some g.outcome)
        (ofSource .go source.toList).functions client.functions ∧
      file.declarations = Go.callerText s.bulk clientType ::
        (List.zipWith below
            ((ofSource .go source.toList).commentsAbove (ofSource .go source.toList).functions)
            (client.functions.map fun g => declarationOf (Go.batchText s.bulk) g.outcome) ++
          remarks
            ((ofSource .go source.toList).commentsBehind (ofSource .go source.toList).functions) ++
          extraDeclarations s.bulk)) ∧
    (∀ f fs, (ofSource .go source.toList).functions = f :: fs →
      ∃ leading, ((ofSource .go source.toList).commentsAbove (f :: fs))[0]? = some
          ((leading ++ Text.commentLines ((ofSource .go source.toList).slice
            ((ofSource .go source.toList).lineStart f.start) f.start)).map String.ofList) ∧
        leading = (((ofSource .go source.toList).linesAbove
          ((ofSource .go source.toList).lineStart f.start)).rtakeWhile isDecoration).filter
            Text.isComment ∧
        ((ofSource .go source.toList).linesAbove
          ((ofSource .go source.toList).lineStart f.start)).rtakeWhile Text.isComment <:+ leading) ∧
    (∀ k f g, (ofSource .go source.toList).functions[k]? = some f →
      (ofSource .go source.toList).functions[k + 1]? = some g →
      ((ofSource .go source.toList).commentsAbove (ofSource .go source.toList).functions)[k + 1]? =
        some ((ofSource .go source.toList).commentsBetween (f.closed + 1) g.start)) ∧
    ((∀ i, (ofSource .go source.toList).OuterFunction i →
        ∃ opened closed, (ofSource .go source.toList).OwnBody i opened closed ∧
          (ofSource .go source.toList).opensType opened = false) →
      ∀ f, f ∈ (ofSource .go source.toList).functions ↔
        (ofSource .go source.toList).OuterFunction f.start ∧
          (ofSource .go source.toList).OwnBody f.start f.opened f.closed) := by
  obtain ⟨client, clientType, header, hread, htype, -, rfl⟩ := caller_of_run h
  refine ⟨⟨client, clientType, hread, htype, ClientFile.forall₂_functions hread, ?_⟩,
    fun f fs hfs => ⟨_, ?_, rfl, ?_⟩, fun k f g => getElem?_commentsAbove _, fun hown f => ?_⟩
  · show Go.callerText s.bulk clientType :: (functionDeclarations s.bulk client.leadingComments
      client.functions ++ extraDeclarations s.bulk) = _
    rw [functionDeclarations_of_read? hread]
  · have hf : f ∈ (ofSource .go source.toList).functions := hfs ▸ List.mem_cons_self
    rw [← commentLines_decorationStart (cutsAt_function hf).1]
    rfl
  · exact rtakeWhile_isSuffix_filter (fun line hline => by unfold isDecoration; rw [hline]; rfl) _
  · refine mem_functions_iff (fun i hi => ?_) (fun i opened closed hi hbody => ?_)
    · obtain ⟨opened, closed, hbody, -⟩ := hown i hi
      exact ⟨opened, closed, hbody⟩
    · obtain ⟨opened', closed', hbody', htype'⟩ := hown i hi
      obtain ⟨rfl, -⟩ := hbody.unique hbody'
      exact htype'

/-- Comments away from a function, directly above it, behind its body, and at the end. -/
def notedClient : String :=
  "// away\n\n// one\n//two\nfunc (c *C) A() (y T, err error) \x7b\n\terr = c.CallRPC(&y, \"a\")\n" ++
    "\treturn\n\x7d // tail\n\n\t// b\nfunc F() \x7b\x7d\n\n// end\n"

theorem batchCaller_comments_notedClient : ∃ file, ∃ client : ClientFile,
    batchCaller {} none notedClient = .ok file ∧
    file.declarations = Go.callerText {} "C" ::
      (List.zipWith below [["// one", "//two"], ["// tail", "// b"]]
        (client.functions.map fun g => declarationOf (Go.batchText {}) g.outcome) ++ ["// end"]) ∧
    client.functions.length = 2 := by
  have hmade : (callerParts? {} none notedClient).map (fun parts =>
      (parts.1.generated, parts.2.all fun spec => (Go.Import.ofSpec spec).name != "")) =
        some (1, true) := by decide +kernel
  have htype : (ofSource .go notedClient.toList).firstReceiverType?
      (ofSource .go notedClient.toList).functions = some "C" := by decide +kernel
  have habove : (ofSource .go notedClient.toList).commentsAbove
      (ofSource .go notedClient.toList).functions =
        [["// one", "//two"], ["// tail", "// b"]] := by decide +kernel
  have hbehind : (ofSource .go notedClient.toList).commentsBehind
      (ofSource .go notedClient.toList).functions = ["// end"] := by decide +kernel
  have hlength : (ofSource .go notedClient.toList).functions.length = 2 := by decide +kernel
  obtain ⟨file, hfile, -⟩ := exists_batchCaller hmade
  obtain ⟨⟨client, clientType, hread, hclient, hentries, hdecls⟩, -⟩ := batchCaller_comments hfile
  rw [ClientFile.clientType?_of_read? hread, htype] at hclient
  obtain rfl : "C" = clientType := Option.some.inj hclient
  rw [habove, hbehind] at hdecls
  refine ⟨file, client, hfile, hdecls.trans ?_, hentries.length_eq.symm.trans hlength⟩
  rw [show extraDeclarations ({} : Settings).bulk = [] from rfl, List.append_nil]
  rfl

/-- A comment between two functions, the first one of which has a type with a name that ends as a
keyword. -/
def lostComment : String :=
  "func (c *C) F() mystruct \x7b\n\x7d\n\n// doc\nfunc (c *C) G() \x7b\n\x7d\n"

/-- The body of the first function is taken for a type, and so the comment for a part of the function.
There is no declaration for the second function, and the comment is lost. -/
theorem comment_behind_struct :
    (ofSource .go lostComment.toList).OwnBody 0 25 27 ∧
    (ofSource .go lostComment.toList).BeginsFunction 37 ∧
    (ofSource .go lostComment.toList).OwnBody 37 53 55 ∧
    (ofSource .go lostComment.toList).commentsBetween 28 37 = ["// doc"] ∧
    ∃ file, batchCaller {} none lostComment = .ok file ∧
      file.declarations.tail =
        ["// ignored client method `F`: results are not (value, err error)"] := by
  have hmade : (callerParts? {} none lostComment).map (fun parts => (parts.1.declarations.tail,
      parts.2.all fun spec => (Go.Import.ofSpec spec).name != "")) =
        some (["// ignored client method `F`: results are not (value, err error)"], true) := by
    decide +kernel
  obtain ⟨file, hfile, hdecls⟩ :=
    exists_batchCaller (f := fun body => body.declarations.tail) hmade
  exact ⟨by decide +kernel, by decide +kernel, by decide +kernel, by decide +kernel,
    file, hfile, hdecls⟩

end GeneratedFile

end RpcBindings
