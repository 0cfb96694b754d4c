import RpcBindings.Generated
import RpcBindings.Proofs.Go.ImportUse

/-!
How runs end.

Below its head a file is what its source makes it, and the head asks of every import whether the file
uses it. Main statements: a body has its file unless a search for such a use never ends
(`FileBody.file_eq_ok_iff`, `FileBody.file_eq_error_iff`).
-/

namespace RpcBindings

namespace FileBody

variable {b : FileBody} {package : String} {imports : List String}

/-- The search for the use of an import in a body never ends. -/
def Endless (b : FileBody) (imports : List String) : Prop :=
  Go.EndlessHeader imports (GeneratedFile.joinDeclarations b.declarations)

/-- The file of a body is the body below its head, and is there when every search ends. -/
theorem file_eq_ok_iff {file : GeneratedFile} :
    b.file package imports = .ok file ↔ ¬b.Endless imports ∧ file = ⟨b, Go.banner ++
      "\n\npackage " ++ package ++ "\n\n" ++ Go.importClause
        (Go.keptImports imports (GeneratedFile.joinDeclarations b.declarations))⟩ := by
  unfold FileBody.file Endless
  split
  · rename_i hnone
    refine iff_of_false (by simp) fun h => h.1 ?_
    exact (Go.headerText?_eq_none_iff _).1 hnone
  · rename_i header hsome
    obtain ⟨hends, rfl⟩ := Go.headerText?_eq_some_iff.1 hsome
    rw [Except.ok.injEq, and_iff_right hends]
    exact eq_comm

/-- A body has no file only when a search never ends. -/
theorem file_eq_error_iff {fault : RunFault} :
    b.file package imports = .error fault ↔ fault = .endlessSearch ∧ b.Endless imports := by
  unfold FileBody.file Endless
  split
  · rename_i hnone
    rw [Except.error.injEq, and_iff_left ((Go.headerText?_eq_none_iff _).1 hnone)]
    exact eq_comm
  · rename_i header hsome
    refine iff_of_false (by simp) fun h => ?_
    exact (Go.headerText?_eq_some_iff.1 hsome).1 h.2

/-- Every search ends when every import is called something. -/
theorem not_endless (h : ∀ spec ∈ imports, (Go.Import.ofSpec spec).name ≠ "") :
    ¬b.Endless imports :=
  Go.not_endlessHeader h _

/-- The file of a body is the body below a head for it. -/
theorem exists_header_of_file {file : GeneratedFile} (h : b.file package imports = .ok file) :
    ∃ header, Go.headerText? package imports (GeneratedFile.joinDeclarations b.declarations) =
      some header ∧ file = ⟨b, header⟩ := by
  obtain ⟨hends, rfl⟩ := file_eq_ok_iff.1 h
  exact ⟨_, Go.headerText?_eq_some_iff.2 ⟨hends, rfl⟩, rfl⟩

end FileBody

namespace GeneratedFile

/-- A batch caller is the one for its client file. -/
theorem caller_of_run {s : Settings} {clientType? : Option String} {source : String}
    {file : GeneratedFile} (h : batchCaller s clientType? source = .ok file) :
    ∃ client type header, ClientFile.read? ⟨s.bulk.primitives, clientType?⟩ source = some client ∧
      client.clientType? = some type ∧
      Go.headerText? s.bulk.package (callerImports s.bulk client)
        (joinDeclarations (FileBody.caller s.bulk type client).declarations) = some header ∧
      file = ⟨FileBody.caller s.bulk type client, header⟩ := by
  unfold batchCaller at h
  split at h
  · cases h
  · rename_i client hclient
    split at h
    · cases h
    · rename_i type htype
      obtain ⟨header, hheader, hfile⟩ := FileBody.exists_header_of_file h
      exact ⟨client, type, header, hclient, htype, hheader, hfile⟩

theorem batchCaller_of_read? {s : Settings} {clientType? : Option String} {source : String}
    {client : ClientFile}
    (h : ClientFile.read? ⟨s.bulk.primitives, clientType?⟩ source = some client) :
    batchCaller s clientType? source =
      match client.clientType? with
      | none => .error .noReceiver
      | some type =>
        (FileBody.caller s.bulk type client).file s.bulk.package (callerImports s.bulk client) := by
  cases htype : client.clientType? <;> simp only [batchCaller, h, htype]

/-- A batch caller that is not made: its client file cannot be read or has no client type, or a search
for the use of an import never ends. -/
theorem batchCaller_eq_error_iff {s : Settings} {clientType? : Option String} {source : String}
    {fault : RunFault} :
    batchCaller s clientType? source = .error fault ↔
      (fault = .brokenCut ∧ ClientFile.read? ⟨s.bulk.primitives, clientType?⟩ source = none) ∨
      ∃ client, ClientFile.read? ⟨s.bulk.primitives, clientType?⟩ source = some client ∧
        ((fault = .noReceiver ∧ client.clientType? = none) ∨
          fault = .endlessSearch ∧ ∃ type, client.clientType? = some type ∧
            (FileBody.caller s.bulk type client).Endless (callerImports s.bulk client)) := by
  cases hread : ClientFile.read? ⟨s.bulk.primitives, clientType?⟩ source with
  | none =>
    simp only [batchCaller, hread, Except.error.injEq, and_true, reduceCtorEq, false_and,
      exists_false, or_false]
    exact eq_comm
  | some client =>
    rw [batchCaller_of_read? hread]
    simp only [reduceCtorEq, and_false, false_or, Option.some.injEq, exists_eq_left']
    cases client.clientType? with
    | none =>
      simp only [Except.error.injEq, and_true, reduceCtorEq, false_and, exists_false, and_false,
        or_false]
      exact eq_comm
    | some type =>
      simp only [FileBody.file_eq_error_iff, reduceCtorEq, and_false, false_or, Option.some.injEq,
        exists_eq_left']

/-- The body of a batch caller and the imports that its head chooses from. -/
def callerParts? (s : Settings) (clientType? : Option String) (source : String) :
    Option (FileBody × List String) :=
  (ClientFile.read? ⟨s.bulk.primitives, clientType?⟩ source).bind fun client =>
    client.clientType?.map fun type =>
      (FileBody.caller s.bulk type client, callerImports s.bulk client)

theorem batchCaller_of_callerParts? {s : Settings} {clientType? : Option String} {source : String}
    {body : FileBody} {imports : List String}
    (h : callerParts? s clientType? source = some (body, imports)) :
    batchCaller s clientType? source = body.file s.bulk.package imports := by
  obtain ⟨client, hclient, htyped⟩ := Option.bind_eq_some_iff.1 h
  obtain ⟨type, htype, hparts⟩ := Option.map_eq_some_iff.1 htyped
  obtain ⟨rfl, rfl⟩ := Prod.mk.inj hparts
  simp only [batchCaller, hclient, htype]

/-- A batch caller is made when all imports are called something, and what is read off its body is
read off it. -/
theorem exists_batchCaller {s : Settings} {clientType? : Option String} {source : String} {β : Type}
    {f : FileBody → β} {b : β}
    (h : (callerParts? s clientType? source).map (fun parts =>
      (f parts.1, parts.2.all fun spec => (Go.Import.ofSpec spec).name != "")) = some (b, true)) :
    ∃ file, batchCaller s clientType? source = .ok file ∧ f file.toFileBody = b := by
  obtain ⟨⟨body, imports⟩, hparts, hread⟩ := Option.map_eq_some_iff.1 h
  obtain ⟨hbody, hnames⟩ := Prod.mk.inj hread
  have hends : ¬body.Endless imports := FileBody.not_endless fun spec hspec =>
    bne_iff_ne.1 (List.all_eq_true.1 hnames spec hspec)
  rw [batchCaller_of_callerParts? hparts]
  exact ⟨_, FileBody.file_eq_ok_iff.2 ⟨hends, rfl⟩, hbody⟩

end GeneratedFile

theorem Mode.run_of_fault? [Rust.ParserMessages] {s : Settings} (h : s.fault? = none) (mode : Mode)
    (source : String) :
    mode.run s source = mode.generate s source := by
  unfold run
  rw [h]

theorem Mode.generate_batchCaller [Rust.ParserMessages] (clientType? : Option String) (s : Settings)
    (source : String) :
    (Mode.batchCaller clientType?).generate s source =
      GeneratedFile.batchCaller s clientType? source := rfl

/-- Stubs are made when all imports are called something. -/
theorem Mode.exists_run_stubs [Rust.ParserMessages] {s : Settings} (hs : s.fault? = none)
    (hnames : ∀ spec ∈ s.client.imports, (Go.Import.ofSpec spec).name ≠ "") (nspace? : Option String)
    (schema : String) : ∃ file, (Mode.stubs nspace?).run s schema = .ok file ∧
      file.toFileBody = FileBody.stubs s nspace? schema := by
  rw [run_of_fault? hs, Mode.generate]
  exact ⟨_, FileBody.file_eq_ok_iff.2 ⟨FileBody.not_endless hnames, rfl⟩, by dsimp only⟩

end RpcBindings
