import RpcBindings.Proofs.Generated.Ending
import RpcBindings.Proofs.Go.ImportClause
import RpcBindings.Proofs.Go.Stub
import RpcBindings.Proofs.Schema.Interface
import RpcBindings.Proofs.Text.Layout

/-!
Client stubs are read back as what they were made from.

A file of stubs is its head, the client type with the constructor, and the members of the interface,
each a stub or a comment in its place. Read as a client file, it holds the constructor and the stubs
and no other function, and each stub gives the parts that it was made of. Main statement:
`ClientFile.exists_read?_stubs`.
-/

namespace RpcBindings

open Masked

namespace Go

/-- What the stub of a method is read back as. -/
def readBack (s : ClientSettings) (table : TypeTable) (nspace : String) (m : RpcMethod) :
    SyncMethod where
  receiverName := s.receiver
  receiverType := s.typeName nspace
  signature := m.functionName ++ "(" ++ declaredParams (stubParams s table m) ++ ")"
  resultName := stubResult (stubParams s table m)
  returnType := .ofText (table.resolve m.returnType).text
  before := ""
  wireName? := some m.wireName
  callArgs := ", ".intercalate (("\"" ++ m.wireName ++ "\"") :: (stubParams s table m).map (·.name))
  after := ""

theorem keptStatements?_lead (s : ClientSettings) (table : TypeTable) (nspace : String)
    (m : RpcMethod) :
    Client.keptStatements? ((stubMethod s table nspace m).lead ++ ['\n']) = some [] := by
  have hnone : Client.keptStatements? ['\n'] = some [] := by decide +kernel
  exact hnone

theorem keptStatements?_trail (s : ClientSettings) (table : TypeTable) (nspace : String)
    (m : RpcMethod) : Client.keptStatements? (afterCall ((stubMethod s table nspace m).trail ++
      '\n' :: (stubMethod s table nspace m).indent)) = some [] := by
  have hnone : Client.keptStatements? (afterCall ['\n', '\t']) = some [] := by decide +kernel
  exact hnone

theorem method_stubMethod (s : ClientSettings) (table : TypeTable) (nspace : String)
    (m : RpcMethod) : (stubMethod s table nspace m).method [] [] = readBack s table nspace m := by
  have hargs : String.ofList ([',', ' '].intercalate (stubMethod s table nspace m).args) =
      ", ".intercalate (("\"" ++ m.wireName ++ "\"") :: (stubParams s table m).map (·.name)) := by
    have hwire : ("\"" ++ m.wireName ++ "\"").toList = quoted m.wireName.toList := by
      simp [quoted, String.toList_append]
    refine String.toList_injective ?_
    rw [String.toList_ofList, String.toList_intercalate, List.map_cons, List.map_map, hwire]
    rfl
  have hsignature : String.ofList (m.functionName.toList ++ '(' ::
      ((declaredParams (stubParams s table m)).toList ++ [')'])) =
      m.functionName ++ "(" ++ declaredParams (stubParams s table m) ++ ")" := by
    refine String.toList_injective ?_
    simp [String.toList_append]
  have hwire : ((stubMethod s table nspace m).args.head?.bind Text.unquote?).map String.ofList =
      some m.wireName := by
    show (Text.unquote? (quoted m.wireName.toList)).map String.ofList = _
    rw [unquote?_quoted, Option.map_some, String.ofList_toList]
  unfold MethodText.method readBack
  rw [hargs, hwire]
  unfold stubMethod
  simp only [String.ofList_toList, hsignature]

end Go

/-! ## The members -/

section Members

variable (s : Settings) (nspace : String)

/-- A member with the empty line before it. -/
def memberText (o : Outcome RpcMethod) : List Char :=
  '\n' :: (GeneratedFile.declarationOf (Go.stubText s.client s.typeTable nspace) o).toList ++ ['\n']

/-- All members of an interface. -/
def membersText (os : List (Outcome RpcMethod)) : List Char :=
  os.flatMap (memberText s nspace)

/-- Where the stubs stand among members that begin at an offset. -/
def stubSpans : Nat → List (Outcome RpcMethod) → List FunctionSpan
  | _, [] => []
  | i, .found m :: os =>
    (Go.stubMethod s.client s.typeTable nspace m).span
        (i + Text.byteLength ('\n' :: Go.stubComment m)) ::
      stubSpans (i + Text.byteLength (memberText s nspace (.found m))) os
  | i, .skipped d :: os => stubSpans (i + Text.byteLength (memberText s nspace (.skipped d))) os

theorem memberText_found (m : RpcMethod) : memberText s nspace (.found m) =
    '\n' :: Go.stubComment m ++ ((Go.stubMethod s.client s.typeTable nspace m).text ++ ['\n']) := by
  unfold memberText
  rw [show GeneratedFile.declarationOf (Go.stubText s.client s.typeTable nspace) (.found m) =
    Go.stubText s.client s.typeTable nspace m from rfl, Go.toList_stubText]
  simp

end Members

/-- What members must be for their stubs to be read back. -/
structure PlainMember (s : Settings) (nspace : String) (o : Outcome RpcMethod) : Prop where
  found : ∀ m, o = .found m → Go.PlainMethod s.client s.typeTable m
  comment : ∀ m, o = .found m → Hidden (Go.stubComment m)
  skipped : ∀ d, o = .skipped d → '\n' ∉ d.marker.toList

namespace PlainMember

variable {s : Settings} {nspace : String} {m : Masked} {i : Nat} {rest : List Char}

/-- A comment in the place of a member holds no function. -/
theorem inert_skipped {d : Diagnostic} (h : PlainMember s nspace (.skipped d)) :
    Inert (memberText s nspace (.skipped d)) := by
  have hcomment : Text.isComment d.marker.toList = true := by
    unfold Diagnostic.marker
    rw [String.toList_append]
    rfl
  exact Go.inert_newline.append (inert_of_hidden (hidden_comment hcomment (h.skipped d rfl)))

theorem inert_comment {method : RpcMethod} (h : PlainMember s nspace (.found method)) :
    Inert ('\n' :: Go.stubComment method) := by
  have hhidden := h.comment method rfl
  unfold Go.stubComment at hhidden ⊢
  cases hdoc : method.docComment? with
  | none => exact Go.inert_newline
  | some comment =>
    rw [hdoc] at hhidden
    exact Go.inert_newline.append (inert_of_hidden hhidden)

end PlainMember

section Reading

variable {s : Settings} {nspace : String} (hs : s.Names)
  (hinvoke : s.client.invoke ∈ s.bulk.primitives)
  (htype : Go.isIdentifier (s.client.typeName nspace) = true)
  {m : Masked} {i : Nat}

include hs hinvoke htype

/-- A stub begins a line below its comment, and the next member begins behind it. -/
theorem textFrom_stub {method : RpcMethod} (h : PlainMember s nspace (.found method))
    {rest : List Char} (ht : m.TextFrom i (memberText s nspace (.found method) ++ rest)) :
    m.TextFrom (i + Text.byteLength ('\n' :: Go.stubComment method))
        ((Go.stubMethod s.client s.typeTable nspace method).text ++ '\n' :: rest) ∧
      m.TextFrom (i + Text.byteLength (memberText s nspace (.found method))) rest := by
  have hshape : memberText s nspace (.found method) ++ rest = '\n' :: Go.stubComment method ++
      ((Go.stubMethod s.client s.typeTable nspace method).text ++ '\n' :: rest) := by
    rw [memberText_found]
    simp
  have hwf := Go.wf_stubMethod hs hinvoke htype (h.found method rfl)
  rw [hshape] at ht
  have htext := ht.drop_solid h.inert_comment.toSolid
  refine ⟨htext, ?_⟩
  have hbehind := (htext.drop (MethodText.regular_text hwf).closed fun _ =>
    detached_cons (by decide) (by decide) _).drop_char (by decide)
  refine hbehind.at_eq ?_
  rw [memberText_found, Text.byteLength_append, Text.byteLength_append,
    show Text.byteLength ['\n'] = 1 from rfl]
  omega

/-- The functions among the members are the stubs. -/
theorem holdsFunctions_stubSpans {os : List (Outcome RpcMethod)}
    (hos : ∀ o ∈ os, PlainMember s nspace o) (ht : m.TextFrom i (membersText s nspace os))
    (hstart : m.IsLineStart i) : m.HoldsFunctions i (stubSpans s nspace i os) := by
  induction os generalizing i with
  | nil =>
    have hsize : m.size = i := by
      have := ht.2.size_eq
      rwa [show mask .go (membersText s nspace []) = [] from rfl, Text.byteLength_nil] at this
    exact fun n hn hlt => absurd hlt (by omega)
  | cons o os ih =>
    have ho := hos o List.mem_cons_self
    have hlater := fun o' ho' => hos o' (List.mem_cons_of_mem o ho')
    unfold membersText at ht
    rw [List.flatMap_cons] at ht
    cases o with
    | skipped d =>
      obtain ⟨hstart', hnone⟩ := ho.inert_skipped.passed ht hstart
      exact (ih hlater (ht.drop_solid ho.inert_skipped.toSolid) hstart').extend hnone (by omega)
    | found method =>
      have hwf := Go.wf_stubMethod hs hinvoke htype (ho.found method rfl)
      obtain ⟨htext, hbehind⟩ := textFrom_stub hs hinvoke htype ho ht
      have hcomment := ht
      rw [memberText_found, List.append_assoc] at hcomment
      obtain ⟨hline, hnone⟩ := ho.inert_comment.passed hcomment hstart
      have hfunction := MethodText.holdsFunction_text hwf htext hline
      have hclosed := MethodText.closed_span (Go.stubMethod s.client s.typeTable nspace method)
        (i + Text.byteLength ('\n' :: Go.stubComment method))
      have hend : i + Text.byteLength (memberText s nspace (.found method)) =
          (((Go.stubMethod s.client s.typeTable nspace method).span
            (i + Text.byteLength ('\n' :: Go.stubComment method))).closed + 1) + 1 := by
        rw [hclosed, memberText_found, Text.byteLength_append, Text.byteLength_append,
          show Text.byteLength ['\n'] = 1 from rfl]
        omega
      have hnewline := htext.drop (MethodText.regular_text hwf).closed fun _ =>
        detached_cons (by decide) (by decide) _
      rw [← hclosed] at hnewline
      have hcode := hnewline.2
      rw [mask_cons (by decide)] at hcode
      have hlast := CodeFrom.holdsNoFunction_of_not_mem (a := ['\n']) hcode (by decide)
      refine ⟨Nat.le_add_right _ _, hnone, hfunction, ?_⟩
      refine (ih hlater hbehind ?_).extend ?_ (by omega)
      · rw [hend]
        exact hcode.isLineStart
      · rw [hend]
        exact hlast

/-- Every stub among the members is found with its parts. -/
theorem readFunctions?_stubSpans {os : List (Outcome RpcMethod)}
    (hos : ∀ o ∈ os, PlainMember s nspace o) (ht : m.TextFrom i (membersText s nspace os)) :
    ∃ fs, m.readFunctions? s.bulk.primitives (some (s.client.typeName nspace))
        (stubSpans s nspace i os) = some fs ∧
      fs.map (·.outcome) = (os.filterMap Outcome.found?).map fun method =>
        .found (Go.readBack s.client s.typeTable nspace method) := by
  induction os generalizing i with
  | nil => exact ⟨[], rfl, rfl⟩
  | cons o os ih =>
    have ho := hos o List.mem_cons_self
    have hlater := fun o' ho' => hos o' (List.mem_cons_of_mem o ho')
    unfold membersText at ht
    rw [List.flatMap_cons] at ht
    cases o with
    | skipped d => exact ih hlater (ht.drop_solid ho.inert_skipped.toSolid)
    | found method =>
      have hwf := Go.wf_stubMethod hs hinvoke htype (ho.found method rfl)
      obtain ⟨htext, hbehind⟩ := textFrom_stub hs hinvoke htype ho ht
      obtain ⟨fs, hfs, hfound⟩ := ih hlater hbehind
      have hread := MethodText.readFunction?_text hwf htext (Go.keptStatements?_lead ..)
        (Go.keptStatements?_trail ..)
      rw [Go.method_stubMethod] at hread
      have hof (fragment : String) : (Outcome.found (Go.readBack s.client s.typeTable nspace
          method)).ofType (some (s.client.typeName nspace)) fragment =
          .found (Go.readBack s.client s.typeTable nspace method) :=
        if_pos rfl
      obtain ⟨comments, hcons⟩ := readFunctions?_cons hread hfs
      unfold stubSpans
      refine ⟨_, hcons, ?_⟩
      rw [List.map_cons, hfound, hof]
      rfl

/-- The first stub among the members gives the receiver type of the file. -/
theorem firstReceiverType?_stubSpans {os : List (Outcome RpcMethod)}
    (hos : ∀ o ∈ os, PlainMember s nspace o) (ht : m.TextFrom i (membersText s nspace os))
    (hfound : ∃ method, .found method ∈ os) :
    m.firstReceiverType? (stubSpans s nspace i os) = some (s.client.typeName nspace) := by
  induction os generalizing i with
  | nil =>
    obtain ⟨method, hmem⟩ := hfound
    exact absurd hmem List.not_mem_nil
  | cons o os ih =>
    have ho := hos o List.mem_cons_self
    have hlater := fun o' ho' => hos o' (List.mem_cons_of_mem o ho')
    unfold membersText at ht
    rw [List.flatMap_cons] at ht
    cases o with
    | skipped d =>
      refine ih hlater (ht.drop_solid ho.inert_skipped.toSolid) ?_
      obtain ⟨method, hmem⟩ := hfound
      exact ⟨method, (List.mem_cons.1 hmem).resolve_left fun h => nomatch h⟩
    | found method =>
      have hwf := Go.wf_stubMethod hs hinvoke htype (ho.found method rfl)
      obtain ⟨htext, -⟩ := textFrom_stub hs hinvoke htype ho ht
      obtain ⟨hhead, -, -⟩ := MethodText.Wf.textFrom_afterName hwf htext
      have hreceiver := MethodText.Wf.receiverAfter?_text hwf hhead
      unfold stubSpans firstReceiverType?
      rw [List.findSome?_cons, show FunctionSpan.head _ =
        i + Text.byteLength ('\n' :: Go.stubComment method) + 4 from rfl, hreceiver, Option.map_some]
      exact congrArg some String.ofList_toList

/-- Nothing of a member reaches over its end. -/
theorem solid_memberText {o : Outcome RpcMethod} (ho : PlainMember s nspace o) :
    Solid (memberText s nspace o) := by
  cases o with
  | skipped d => exact ho.inert_skipped.toSolid
  | found method =>
    have hwf := Go.wf_stubMethod hs hinvoke htype (ho.found method rfl)
    have htext : Solid ((Go.stubMethod s.client s.typeTable nspace method).text ++ ['\n']) := by
      refine ⟨(MethodText.regular_text hwf).closed.append hidden_newline.closed fun _ =>
        detached_cons (by decide) (by decide) _, ?_⟩
      rw [List.getLast?_append_of_ne_nil _ (List.cons_ne_nil _ _)]
      decide
    rw [memberText_found]
    exact ho.inert_comment.toSolid.append htext

theorem solid_membersText {os : List (Outcome RpcMethod)}
    (hos : ∀ o ∈ os, PlainMember s nspace o) : Solid (membersText s nspace os) := by
  induction os with
  | nil => exact hidden_nil.toSolid
  | cons o os ih =>
    unfold membersText
    rw [List.flatMap_cons]
    exact (solid_memberText hs hinvoke htype (hos o List.mem_cons_self)).append
      (ih fun o' ho' => hos o' (List.mem_cons_of_mem o ho'))

end Reading

/-! ## The whole file -/

/-- Declarations with empty lines between them, each with the line feeds around it. -/
theorem intercalate_newlines (a : List Char) (as : List (List Char)) :
    ['\n', '\n'].intercalate (a :: as) ++ ['\n'] =
      a ++ '\n' :: as.flatMap fun b => '\n' :: b ++ ['\n'] := by
  induction as generalizing a with
  | nil => simp [List.intercalate]
  | cons b as ih =>
    rw [List.intercalate_cons_cons, List.append_assoc, ih, List.flatMap_cons]
    simp

variable [Rust.ParserMessages]

/-- The declarations and the outcomes of stubs are those of the one interface. -/
theorem FileBody.stubs_of_readAll {s : Settings} {nspace? : Option String} {schema : String}
    {i : RpcInterface}
    (hone : RpcInterface.readAll ⟨nspace?, s.client.resultWrappers⟩ schema = [i]) :
    stubs s nspace? schema =
      ofOutcomes (GeneratedFile.interfaceDeclarations s i) i.members := by
  unfold stubs
  rw [hone]
  simp only [List.flatMap_cons, List.flatMap_nil, List.append_nil]

/-- The file of stubs for one interface by its parts. -/
theorem GeneratedFile.toList_source_stubs {s : Settings} {nspace? : Option String} {schema : String}
    {i : RpcInterface}
    (hone : RpcInterface.readAll ⟨nspace?, s.client.resultWrappers⟩ schema = [i])
    {file : GeneratedFile} (hfile : file.toFileBody = FileBody.stubs s nspace? schema) :
    file.source.toList = file.header.toList ++ Go.clientTypeLines s.client i.nspace ++
      (Go.constructorText s.client i.nspace ++ '\n' :: membersText s i.nspace i.members) := by
  have hdeclarations : file.declarations = interfaceDeclarations s i := by
    rw [hfile, FileBody.stubs_of_readAll hone, FileBody.ofOutcomes]
  have hmembers : (i.members.map (declarationOf (Go.stubText s.client s.typeTable i.nspace))).map
      String.toList = i.members.map fun o =>
        (declarationOf (Go.stubText s.client s.typeTable i.nspace) o).toList := by
    rw [List.map_map]
    rfl
  have htype : (Go.clientTypeText s.client i.nspace).toList =
      Go.clientTypeLines s.client i.nspace ++ Go.constructorText s.client i.nspace :=
    Go.toList_clientTypeText s.client i.nspace
  unfold source joinDeclarations
  rw [hdeclarations, String.toList_append, String.toList_append, String.toList_intercalate,
    interfaceDeclarations, List.map_cons, hmembers, List.append_assoc]
  show _ ++ (['\n', '\n'].intercalate _ ++ ['\n']) = _
  rw [intercalate_newlines, htype, List.flatMap_map]
  unfold membersText memberText
  simp only [List.append_assoc]

/-- Settings whose stubs can be read back: the core has a named type, its field is not called as the
keyword of functions, and imports are plain. -/
structure PlainClient (s : Settings) : Prop where
  no_fault : s.fault? = none
  invoke : s.client.invoke ∈ s.bulk.primitives
  coreType : Go.isIdentifier s.client.coreType = true
  coreField : s.client.coreField ≠ "func"
  imports : ∀ spec ∈ s.client.imports, Go.PlainSpec spec

/-- An interface whose stubs can be read back: the client type has a name that ends like no type that
is written out, there is a method, all methods are plain, and what is left out is said on one line. -/
structure PlainInterface (s : Settings) (i : RpcInterface) : Prop where
  typeName : Go.isIdentifier (s.client.typeName i.nspace) = true
  not_struct : ¬"struct".toList <:+ (s.client.typeName i.nspace).toList
  not_interface : ¬"interface".toList <:+ (s.client.typeName i.nspace).toList
  method : ∃ m, .found m ∈ i.members
  methods : ∀ m, .found m ∈ i.members → Go.PlainMethod s.client s.typeTable m
  skips : ∀ d, .skipped d ∈ i.members → '\n' ∉ d.marker.toList

/-- What the reader says of the constructor. -/
def constructorSkip (s : ClientSettings) (nspace : String) : Diagnostic where
  kind := .clientFunction
  subject := some ("New" ++ s.typeName nspace)
  reason := .noNamedReceiver
  fragment := .ofList (Go.constructorText s nspace)

section File

variable {s : Settings} {nspace? : Option String} {schema : String} {i : RpcInterface}
  (hs : PlainClient s)
  (hone : RpcInterface.readAll ⟨nspace?, s.client.resultWrappers⟩ schema = [i])
  (hi : PlainInterface s i)

include hs hi

omit hs in
include hone in
theorem plainMember_of_mem : ∀ o ∈ i.members, PlainMember s i.nspace o := by
  intro o ho
  refine ⟨fun m hm => hi.methods m (hm ▸ ho), fun m hm => ?_, fun d hd => hi.skips d (hd ▸ ho)⟩
  unfold Go.stubComment
  cases hdoc : m.docComment? with
  | none => exact hidden_nil
  | some comment =>
    have hmem : i ∈ RpcInterface.readAll ⟨nspace?, s.client.resultWrappers⟩ schema := by
      rw [hone]
      exact List.mem_cons_self
    exact RpcInterface.hidden_docComment hmem (hm ▸ ho) hdoc

omit [Rust.ParserMessages] in
/-- What stands before the constructor holds no function. -/
theorem inert_stubsHead {body header : String}
    (h : Go.headerText? s.client.package s.client.imports body = some header) :
    Inert (header.toList ++ Go.clientTypeLines s.client i.nspace) := by
  have hnames := Settings.names_of_fault? hs.no_fault
  exact (Go.inert_headerText? (Go.isName_toList hnames.package) hs.imports h).append
    (Go.inert_clientTypeLines hi.typeName hnames.coreField hs.coreType hs.coreField)

/-- The functions of a file of stubs: the constructor, and the stubs. -/
def fileSpans (s : Settings) (i : RpcInterface) (start : Nat) : List FunctionSpan :=
  Go.constructorSpan s.client i.nspace start ::
    stubSpans s i.nspace (start + Text.byteLength (Go.constructorText s.client i.nspace) + 1) i.members

variable {m : Masked} {start : Nat}

omit [Rust.ParserMessages] in
/-- Behind the constructor the members stand. -/
theorem textFrom_members (ht : m.TextFrom start (Go.constructorText s.client i.nspace ++
    '\n' :: membersText s i.nspace i.members)) :
    m.CodeFrom (start + Text.byteLength (Go.constructorText s.client i.nspace))
        ('\n' :: mask .go (membersText s i.nspace i.members)) ∧
      m.TextFrom (start + Text.byteLength (Go.constructorText s.client i.nspace) + 1)
        (membersText s i.nspace i.members) := by
  have hnames := Settings.names_of_fault? hs.no_fault
  have hregular := Go.regular_constructorText (Go.isName_toList hi.typeName)
    (Go.isName_toList hnames.coreField) (Go.isName_toList hs.coreType)
  have hnewline := ht.drop hregular.closed fun _ => detached_cons (by decide) (by decide) _
  have hcode := hnewline.2
  rw [mask_cons (by decide)] at hcode
  exact ⟨hcode, hnewline.drop_char (by decide)⟩

include hone in
theorem holdsFunctions_fileSpans (hline : m.IsLineStart start)
    (ht : m.TextFrom start (Go.constructorText s.client i.nspace ++
      '\n' :: membersText s i.nspace i.members)) :
    m.HoldsFunctions start (fileSpans s i start) := by
  have hnames := Settings.names_of_fault? hs.no_fault
  obtain ⟨hcode, hbehind⟩ := textFrom_members hs hi ht
  have hshape : Go.constructorText s.client i.nspace ++ '\n' :: membersText s i.nspace i.members =
      "func".toList ++ Go.constructorHead s.client i.nspace ++ '\x7b' ::
        (Go.constructorBody s.client i.nspace ++ '\x7d' :: '\n' ::
          membersText s i.nspace i.members) := by
    simp [Go.constructorText]
  rw [hshape] at ht
  have hfunction := Go.holdsFunction_constructor (Go.isName_toList hi.typeName)
    (Go.isName_toList hnames.coreField) (Go.isName_toList hs.coreType) hi.not_struct hi.not_interface
    ht hline
  have hstubs := holdsFunctions_stubSpans hnames hs.invoke hi.typeName (plainMember_of_mem hone hi)
    hbehind hcode.isLineStart
  have hlast := CodeFrom.holdsNoFunction_of_not_mem (a := ['\n']) hcode (by decide)
  refine ⟨Nat.le_refl _, fun n hn hlt => absurd hlt (Nat.not_lt.2 hn), hfunction, ?_⟩
  rw [Go.closed_constructorSpan]
  exact hstubs.extend hlast (Nat.le_add_right _ _)

include hone in
theorem readFunctions?_fileSpans (ht : m.TextFrom start (Go.constructorText s.client i.nspace ++
    '\n' :: membersText s i.nspace i.members)) :
    m.firstReceiverType? (fileSpans s i start) = some (s.client.typeName i.nspace) ∧
      ∃ fs, m.readFunctions? s.bulk.primitives (some (s.client.typeName i.nspace))
          (fileSpans s i start) = some fs ∧
        fs.map (·.outcome) = .skipped (constructorSkip s.client i.nspace) ::
          (i.members.filterMap Outcome.found?).map fun method =>
            .found (Go.readBack s.client s.typeTable i.nspace method) := by
  have hnames := Settings.names_of_fault? hs.no_fault
  have hmembers := plainMember_of_mem hone hi
  obtain ⟨-, hbehind⟩ := textFrom_members hs hi ht
  have htype := Go.isName_toList hi.typeName
  constructor
  · have hstubs := firstReceiverType?_stubSpans hnames hs.invoke hi.typeName hmembers hbehind
      hi.method
    have hhead := ht
    unfold Go.constructorText at hhead
    rw [List.append_assoc, List.append_assoc] at hhead
    have hnone := (Go.receiverAfter?_constructor htype hhead).1
    unfold fileSpans firstReceiverType?
    rw [List.findSome?_cons, show FunctionSpan.head _ = start + 4 from rfl, hnone]
    exact hstubs
  · have hskip : m.readFunction? s.bulk.primitives (Go.constructorSpan s.client i.nspace start) =
        some (.skipped (constructorSkip s.client i.nspace)) :=
      Go.readFunction?_constructor htype ht
    obtain ⟨fs, hfs, hfound⟩ :=
      readFunctions?_stubSpans hnames hs.invoke hi.typeName hmembers hbehind
    obtain ⟨comments, hcons⟩ := readFunctions?_cons hskip hfs
    refine ⟨_, hcons, ?_⟩
    rw [List.map_cons, hfound]
    rfl

include hone in
/-- A file of stubs is read, and holds the constructor and every stub. -/
theorem ClientFile.exists_read?_stubs {file : GeneratedFile}
    (hfile : (FileBody.stubs s nspace? schema).file s.client.package s.client.imports = .ok file) :
    ∃ client, ClientFile.read? ⟨s.bulk.primitives, none⟩ file.source = some client ∧
      client.clientType? = some (s.client.typeName i.nspace) ∧
      client.functions.map (·.outcome) = .skipped (constructorSkip s.client i.nspace) ::
        (i.members.filterMap Outcome.found?).map fun method =>
          .found (Go.readBack s.client s.typeTable i.nspace method) := by
  have hnames := Settings.names_of_fault? hs.no_fault
  obtain ⟨header, hheader, hbody⟩ := FileBody.exists_header_of_file hfile
  have hhead : Inert (header.toList ++ Go.clientTypeLines s.client i.nspace) :=
    inert_stubsHead hs hi hheader
  have hregular := Go.regular_constructorText (Go.isName_toList hi.typeName)
    (Go.isName_toList hnames.coreField) (Go.isName_toList hs.coreType)
  have hsource := GeneratedFile.toList_source_stubs hone (congrArg (·.toFileBody) hbody)
  rw [show file.header = header from congrArg (·.header) hbody] at hsource
  generalize file.source = source at hsource
  have hclosed : Closed source.toList := by
    have hmembers := solid_membersText hnames hs.invoke hi.typeName (plainMember_of_mem hone hi)
    have hrest := hidden_newline.toSolid.append hmembers
    rw [hsource]
    exact hhead.closed.append (hregular.closed.append hrest.closed fun _ =>
      detached_cons (by decide) (by decide) _) fun hslash => absurd hslash hhead.no_slash
  obtain ⟨imports, himports⟩ := exists_imports? hclosed.whole.unsplit
  have htext := TextFrom.start source.toList
  rw [hsource] at htext
  obtain ⟨hline, hnone⟩ := hhead.passed htext (isLineStart_zero _)
  have hfile := htext.drop_solid hhead.toSolid
  rw [Nat.zero_add] at hline hnone hfile
  rw [← hsource] at hline hnone hfile
  have hfunctions := functions_eq ((holdsFunctions_fileSpans hs hone hi hline hfile).extend hnone
    (Nat.zero_le _))
  obtain ⟨hwanted, fs, hfs, hfound⟩ := readFunctions?_fileSpans hs hone hi hfile
  obtain ⟨client, hclient, hheld, hof⟩ := @ClientFile.exists_read? ⟨s.bulk.primitives, none⟩ source fs
    imports (by rw [hfunctions, Option.none_or, hwanted]; exact hfs) himports
  rw [hfunctions, Option.none_or, hwanted] at hof
  exact ⟨client, hclient, hof, by rw [hheld, hfound]⟩

end File

end RpcBindings
