import RpcBindings.Proofs.Generated.Ending

/-!
What becomes of the outcomes of a source.

A file is put together in one pass over the outcomes of its source: each one that was found is
rendered and counted, and each one that was left out keeps its diagnostic. What a pass has put out
stays in step with what it has read (`InStep`), also where comments are carried to the next declaration
(`MethodsInStep`). Main statement: the declarations, the diagnostics and the number of a file are in
step with the outcomes of its source in every mode, and none of these is missing
(`Mode.outcomes_accounted`). Only a search for the use of an import that never ends keeps stubs and
structs from their file.
-/

namespace RpcBindings

namespace GeneratedFile

variable {α : Type} {outcomes : List (Outcome α)} {diagnostics : List Diagnostic} {n : Nat}

/-! ## Numbers -/

/-- Diagnostics and a number tally with some outcomes. -/
structure Tallies (outcomes : List (Outcome α)) (diagnostics : List Diagnostic) (n : Nat) : Prop where
  found : n = (outcomes.filterMap Outcome.found?).length
  skipped : diagnostics = outcomes.filterMap Outcome.skipped?
  total : n + diagnostics.length = outcomes.length

namespace Tallies

theorem nil : Tallies ([] : List (Outcome α)) [] 0 := ⟨rfl, rfl, rfl⟩

theorem cons_found (h : Tallies outcomes diagnostics n) (value : α) :
    Tallies (.found value :: outcomes) diagnostics (n + 1) where
  found := by rw [h.found]; rfl
  skipped := h.skipped
  total := by rw [List.length_cons, ← h.total, Nat.add_right_comm]

theorem cons_skipped (h : Tallies outcomes diagnostics n) (d : Diagnostic) :
    Tallies (.skipped d :: outcomes) (d :: diagnostics) n where
  found := h.found
  skipped := by rw [h.skipped]; rfl
  total := by rw [List.length_cons, List.length_cons, ← h.total, Nat.add_assoc]

theorem append {outcomes' : List (Outcome α)} {diagnostics' : List Diagnostic} {n' : Nat}
    (h : Tallies outcomes diagnostics n) (h' : Tallies outcomes' diagnostics' n') :
    Tallies (outcomes ++ outcomes') (diagnostics ++ diagnostics') (n + n') where
  found := by rw [List.filterMap_append, List.length_append, h.found, h'.found]
  skipped := by rw [List.filterMap_append, h.skipped, h'.skipped]
  total := by
    rw [List.length_append, List.length_append, ← h.total, ← h'.total, Nat.add_add_add_comm]

end Tallies

/-- A file accounts for some outcomes: it has counted those that were found, it has the diagnostics of
those that were left out in order, and there are no others. -/
structure Accounts (file : GeneratedFile) (outcomes : List (Outcome α)) : Prop where
  generated : file.generated = (outcomes.filterMap Outcome.found?).length
  diagnostics : file.diagnostics = outcomes.filterMap Outcome.skipped?
  total : file.generated + file.skipped = outcomes.length

theorem Tallies.accounts {file : GeneratedFile}
    (h : Tallies outcomes file.diagnostics file.generated) : file.Accounts outcomes :=
  ⟨h.found, h.skipped, h.total⟩

/-! ## Passes over outcomes -/

/-- A pass that is in step with some outcomes: one by one it has put out the text of what was found,
and of what was left out the texts in its place and the diagnostic. It has counted what was found. -/
inductive InStep (render : α → String) (place : Diagnostic → List String) :
    List (Outcome α) → List String → List Diagnostic → Nat → Prop
  | nil : InStep render place [] [] [] 0
  | found {value : α} {outcomes : List (Outcome α)} {texts : List String}
      {diagnostics : List Diagnostic} {n : Nat}
      (rest : InStep render place outcomes texts diagnostics n) :
      InStep render place (.found value :: outcomes) (render value :: texts) diagnostics (n + 1)
  | skipped {d : Diagnostic} {outcomes : List (Outcome α)} {texts : List String}
      {diagnostics : List Diagnostic} {n : Nat}
      (rest : InStep render place outcomes texts diagnostics n) :
      InStep render place (.skipped d :: outcomes) (place d ++ texts) (d :: diagnostics) n

/-- A pass over interfaces: each one puts out its client type and then its members, with a comment in
the place of each member that was left out. -/
inductive StubsInStep (s : Settings) :
    List RpcInterface → List String → List Diagnostic → Nat → Prop
  | nil : StubsInStep s [] [] [] 0
  | cons {i : RpcInterface} {is : List RpcInterface} {own texts : List String}
      {skipped diagnostics : List Diagnostic} {k n : Nat}
      (members : InStep (Go.stubText s.client s.typeTable i.nspace) (fun d => [d.marker]) i.members
        own skipped k)
      (rest : StubsInStep s is texts diagnostics n) :
      StubsInStep s (i :: is) (Go.clientTypeText s.client i.nspace :: (own ++ texts))
        (skipped ++ diagnostics) (k + n)

/-- A pass over functions that carries comments: each function puts out one declaration under the
comments before it, and carries the ones behind it on. Comments that are left are one more declaration. -/
inductive MethodsInStep (render : SyncMethod → String) :
    List String → List ClientFunction → List String → List Diagnostic → Nat → Prop
  | nil : MethodsInStep render [] [] [] [] 0
  | comments {carried : List String} (some : carried ≠ []) :
      MethodsInStep render carried [] ["\n".intercalate carried] [] 0
  | found {carried trailing : List String} {m : SyncMethod} {fs : List ClientFunction}
      {texts : List String} {diagnostics : List Diagnostic} {n : Nat}
      (rest : MethodsInStep render trailing fs texts diagnostics n) :
      MethodsInStep render carried (⟨.found m, trailing⟩ :: fs)
        (withComments carried (render m) :: texts) diagnostics (n + 1)
  | skipped {carried trailing : List String} {d : Diagnostic} {fs : List ClientFunction}
      {texts : List String} {diagnostics : List Diagnostic} {n : Nat}
      (rest : MethodsInStep render trailing fs texts diagnostics n) :
      MethodsInStep render carried (⟨.skipped d, trailing⟩ :: fs)
        (withComments carried d.marker :: texts) (d :: diagnostics) n

theorem InStep.tallies {render : α → String} {place : Diagnostic → List String}
    {texts : List String} (h : InStep render place outcomes texts diagnostics n) :
    Tallies outcomes diagnostics n := by
  induction h with
  | nil => exact .nil
  | found _ ih => exact ih.cons_found _
  | skipped _ ih => exact ih.cons_skipped _

theorem StubsInStep.tallies {s : Settings} {is : List RpcInterface} {texts : List String}
    (h : StubsInStep s is texts diagnostics n) :
    Tallies (is.flatMap (·.members)) diagnostics n := by
  induction h with
  | nil => exact .nil
  | cons members _ ih => exact members.tallies.append ih

theorem MethodsInStep.tallies {render : SyncMethod → String} {carried texts : List String}
    {fs : List ClientFunction} (h : MethodsInStep render carried fs texts diagnostics n) :
    Tallies (fs.map (·.outcome)) diagnostics n := by
  induction h with
  | nil => exact .nil
  | comments _ => exact .nil
  | found _ ih => exact ih.cons_found _
  | skipped _ ih => exact ih.cons_skipped _

/-- A pass over functions puts out a declaration for each, and at most one more. -/
theorem MethodsInStep.length_le {render : SyncMethod → String} {carried texts : List String}
    {fs : List ClientFunction} (h : MethodsInStep render carried fs texts diagnostics n) :
    fs.length ≤ texts.length ∧ texts.length ≤ fs.length + 1 := by
  induction h with
  | nil => exact ⟨Nat.le_refl 0, Nat.zero_le 1⟩
  | comments _ => exact ⟨Nat.zero_le 1, Nat.le_refl 1⟩
  | found _ ih => exact ⟨Nat.succ_le_succ ih.1, Nat.succ_le_succ ih.2⟩
  | skipped _ ih => exact ⟨Nat.succ_le_succ ih.1, Nat.succ_le_succ ih.2⟩

/-! ## The passes of the three modes -/

theorem inStep_map (render : α → String) (outcomes : List (Outcome α)) :
    InStep render (fun d => [d.marker]) outcomes (outcomes.map (declarationOf render))
      (outcomes.filterMap Outcome.skipped?) (outcomes.filterMap Outcome.found?).length := by
  induction outcomes with
  | nil => exact .nil
  | cons o outcomes ih =>
    cases o with
    | found value => exact .found ih
    | skipped d => exact .skipped ih

theorem inStep_filterMap (render : α → String) (outcomes : List (Outcome α)) :
    InStep render (fun _ => []) outcomes ((outcomes.filterMap Outcome.found?).map render)
      (outcomes.filterMap Outcome.skipped?) (outcomes.filterMap Outcome.found?).length := by
  induction outcomes with
  | nil => exact .nil
  | cons o outcomes ih =>
    cases o with
    | found value => exact .found ih
    | skipped d => exact .skipped ih

theorem stubsInStep_flatMap (s : Settings) (is : List RpcInterface) :
    StubsInStep s is (is.flatMap (interfaceDeclarations s))
      ((is.flatMap (·.members)).filterMap Outcome.skipped?)
      ((is.flatMap (·.members)).filterMap Outcome.found?).length := by
  induction is with
  | nil => exact .nil
  | cons i is ih =>
    simp only [List.flatMap_cons, List.filterMap_append, List.length_append]
    exact .cons (inStep_map _ i.members) ih

theorem methodsInStep_functions (s : BulkSettings) (carried : List String) (fs : List ClientFunction) :
    MethodsInStep (Go.batchText s) carried fs (functionDeclarations s carried fs)
      ((fs.map (·.outcome)).filterMap Outcome.skipped?)
      ((fs.map (·.outcome)).filterMap Outcome.found?).length := by
  induction fs generalizing carried with
  | nil =>
    cases carried with
    | nil => exact .nil
    | cons c carried => exact .comments (List.cons_ne_nil c carried)
  | cons f fs ih =>
    obtain ⟨outcome, trailing⟩ := f
    cases outcome with
    | found m => exact .found (ih trailing)
    | skipped d => exact .skipped (ih trailing)

theorem stubsInStep_stubs (s : Settings) (nspace? : Option String) (schema : String) :
    StubsInStep s (RpcInterface.readAll ⟨nspace?, s.client.resultWrappers⟩ schema)
      (FileBody.stubs s nspace? schema).declarations (FileBody.stubs s nspace? schema).diagnostics
      (FileBody.stubs s nspace? schema).generated := by
  simp only [FileBody.stubs, FileBody.ofOutcomes]
  exact stubsInStep_flatMap s _

theorem inStep_structs (s : Settings) (schema : String) :
    InStep (Go.structText s.typeTable) (fun _ => []) (Record.readAll schema)
      (FileBody.structs s schema).declarations (FileBody.structs s schema).diagnostics
      (FileBody.structs s schema).generated := by
  simp only [FileBody.structs, FileBody.ofOutcomes]
  exact inStep_filterMap _ _

end GeneratedFile

namespace Mode

open GeneratedFile

/-- Under settings without a fault every run that makes a file is in step with the outcomes of its
source, and for stubs and structs every run makes one unless it searches for ever. For stubs the
declarations are, interface by interface, the client type and then one for each member; for structs
one for each record that was found; for batch callers the caller, one for each function under its
comments, the comments at the end if there are any, and the functions of the settings. In all three
the file accounts for all outcomes. -/
theorem outcomes_accounted (s : Settings) (h : s.fault? = none) :
    (∀ nspace? schema,
      ((stubs nspace?).run s schema = .error .endlessSearch ↔
        (FileBody.stubs s nspace? schema).Endless s.client.imports) ∧
      (¬(FileBody.stubs s nspace? schema).Endless s.client.imports →
        ∃ file, (stubs nspace?).run s schema = .ok file ∧
          StubsInStep s (RpcInterface.readAll ⟨nspace?, s.client.resultWrappers⟩ schema)
            file.declarations file.diagnostics file.generated ∧
          file.Accounts ((RpcInterface.readAll ⟨nspace?, s.client.resultWrappers⟩ schema).flatMap
            (·.members)))) ∧
    (∀ schema,
      (structs.run s schema = .error .endlessSearch ↔
        (FileBody.structs s schema).Endless s.structs.imports) ∧
      (¬(FileBody.structs s schema).Endless s.structs.imports →
        ∃ file, structs.run s schema = .ok file ∧
          InStep (Go.structText s.typeTable) (fun _ => []) (Record.readAll schema)
            file.declarations file.diagnostics file.generated ∧
          file.Accounts (Record.readAll schema))) ∧
    ∀ clientType? source file, (batchCaller clientType?).run s source = .ok file →
      ∃ client type methods,
        ClientFile.read? ⟨s.bulk.primitives, clientType?⟩ source = some client ∧
        client.clientType? = some type ∧
        file.declarations = Go.callerText s.bulk type :: (methods ++ extraDeclarations s.bulk) ∧
        MethodsInStep (Go.batchText s.bulk) client.leadingComments client.functions methods
          file.diagnostics file.generated ∧
        client.functions.length ≤ methods.length ∧ methods.length ≤ client.functions.length + 1 ∧
        file.Accounts (client.functions.map (·.outcome)) := by
  have runs (mode : Mode) (source : String) {package : String} {imports : List String}
      {body : FileBody} (hmade : mode.generate s source = body.file package imports) :
      (mode.run s source = .error .endlessSearch ↔ body.Endless imports) ∧
        (¬body.Endless imports → ∃ header, mode.run s source = .ok ⟨body, header⟩) := by
    rw [run_of_fault? h, hmade]
    exact ⟨FileBody.file_eq_error_iff.trans (and_iff_right rfl),
      fun hends => ⟨_, FileBody.file_eq_ok_iff.2 ⟨hends, rfl⟩⟩⟩
  refine ⟨fun nspace? schema => ?_, fun schema => ?_, fun clientType? source file hrun => ?_⟩
  · obtain ⟨hendless, hends⟩ := runs (stubs nspace?) schema rfl
    refine ⟨hendless, fun hno => ?_⟩
    obtain ⟨header, hrun⟩ := hends hno
    have hstep := stubsInStep_stubs s nspace? schema
    exact ⟨_, hrun, hstep, hstep.tallies.accounts⟩
  · obtain ⟨hendless, hends⟩ := runs structs schema rfl
    refine ⟨hendless, fun hno => ?_⟩
    obtain ⟨header, hrun⟩ := hends hno
    have hstep := inStep_structs s schema
    exact ⟨_, hrun, hstep, hstep.tallies.accounts⟩
  · rw [run_of_fault? h] at hrun
    obtain ⟨client, type, header, hclient, htype, -, rfl⟩ := caller_of_run hrun
    have hstep := methodsInStep_functions s.bulk client.leadingComments client.functions
    obtain ⟨hle, hge⟩ := hstep.length_le
    exact ⟨client, type, _, hclient, htype, rfl, hstep, hle, hge, hstep.tallies.accounts⟩

/-- An interface with a method and a helper, a record, and a struct that is none. -/
def mixedSchema : String :=
  "trait T \x7b\n#[rpc(name = \"t_a\")]\nfn a(&self) -> u64;\nfn b(&self);\n\x7d\n" ++
  "pub struct P \x7b pub x: u32 \x7d\nstruct U(u8);\n"

/-- A method that makes a call and one that makes none, with comments before, between and behind. -/
def commentedClient : String :=
  "// One.\nfunc (c *C) A(x T) (y T, err error) \x7b\n\terr = c.CallRPC(&y, \"a\", x)\n\treturn\n\x7d\n\n" ++
  "// Two.\nfunc (c *C) Close() error \x7b\n\treturn nil\n\x7d\n// End.\n"

theorem outcomes_accounted_standard : ({} : Settings).fault? = none ∧
    (∃ file, (stubs none).run {} mixedSchema = .ok file ∧ file.generated + file.skipped = 2) ∧
    (∃ file, structs.run {} mixedSchema = .ok file ∧ file.generated + file.skipped = 2) ∧
    ∃ file, ∃ client : ClientFile, ∃ methods, (batchCaller none).run {} commentedClient = .ok file ∧
      file.declarations = Go.callerText {} "C" :: methods ∧
      MethodsInStep (Go.batchText {}) ["// One."] client.functions methods file.diagnostics
        file.generated ∧
      2 ≤ methods.length ∧ methods.length ≤ 3 ∧ file.generated + file.skipped = 2 := by
  have hfault : ({} : Settings).fault? = none := by decide +kernel
  obtain ⟨hstubs, hstructs, hbulk⟩ := outcomes_accounted {} hfault
  obtain ⟨stubFile, hstub, -, hstubAccounts⟩ :=
    (hstubs none mixedSchema).2 (FileBody.not_endless (by decide +kernel))
  obtain ⟨structFile, hstruct, -, hstructAccounts⟩ :=
    (hstructs mixedSchema).2 (FileBody.not_endless (by decide +kernel))
  refine ⟨hfault, ⟨stubFile, hstub, hstubAccounts.total.trans (by decide +kernel)⟩,
    ⟨structFile, hstruct, hstructAccounts.total.trans (by decide +kernel)⟩, ?_⟩
  have hclient : (ClientFile.read? ⟨({} : Settings).bulk.primitives, none⟩ commentedClient).map
      (fun client => (client.clientType?, client.leadingComments, client.functions.length)) =
        some (some "C", ["// One."], 2) := by decide +kernel
  have hmade : (callerParts? {} none commentedClient).map (fun parts =>
      (parts.1.generated, parts.2.all fun spec => (Go.Import.ofSpec spec).name != "")) =
        some (1, true) := by
    decide +kernel
  obtain ⟨file, hfile, -⟩ := exists_batchCaller hmade
  have hrun : (batchCaller none).run {} commentedClient = .ok file := by
    rw [run_of_fault? hfault, generate_batchCaller, hfile]
  obtain ⟨client, type, methods, hread, htype, hdecls, hstep, hle, hge, haccounts⟩ :=
    hbulk none commentedClient file hrun
  rw [hread, Option.map_some, htype] at hclient
  simp only [Option.some.injEq, Prod.mk.injEq] at hclient
  obtain ⟨rfl, hcomments, hlength⟩ := hclient
  rw [hcomments] at hstep
  rw [hlength] at hle hge
  have hextra : extraDeclarations {} = [] := rfl
  refine ⟨file, client, methods, hrun, ?_, hstep, hle, hge, ?_⟩
  · rw [hdecls, hextra, List.append_nil]
  · rw [haccounts.total, List.length_map, hlength]

/-- Settings with an import that is called nothing. -/
def namelessImport : Settings where
  structs := { imports := [""] }

/-- A run on structs that never makes its file, though its settings have no fault. -/
theorem structs_never_made : ¬∀ s : Settings, s.fault? = none → ∀ schema,
    ∃ file, structs.run s schema = .ok file := by
  intro h
  obtain ⟨file, hfile⟩ := h namelessImport (by decide +kernel) mixedSchema
  have hnone : (structs.run namelessImport mixedSchema).isOk = false := by decide +kernel
  rw [hfile] at hnone
  exact absurd hnone nofun

end Mode

end RpcBindings
