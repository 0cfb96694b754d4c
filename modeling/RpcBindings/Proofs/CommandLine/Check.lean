import RpcBindings.Proofs.CommandLine.Effects
import RpcBindings.Proofs.Generated.Ending
import RpcBindings.Proofs.Schema.FieldType

/-!
Checking settings and generating with them.

Both read the same file and refuse the same faults. Main statement: structs and stubs are generated with
settings exactly when a check of them succeeds, unless the generator never comes to its end; and every
type that the check prints is the one that fields of structs are declared with
(`Workspace.check_agrees`).
-/

namespace RpcBindings.CommandLine

/-! ## Command lines -/

/-- The command line that checks a file of settings. -/
def checkLine (settings : String) : List String :=
  ["check-config", "-c", settings]

/-- The command line that prints what a command makes of a source. -/
def printLine (c : Command) (input settings : String) : List String :=
  [c.name, "-i", input, "-o", "-", "-c", settings]

section Options

variable {s : Scope} {arg : String} {o : ValueOption} {given g : Given} {value : String}

/-- An option of one letter with its value behind it. -/
theorem readOptions_value (hread : s.read arg = .option o none) (hvalue : isValue value = true)
    (hadd : addValue? given o value = some g) (rest : List String) :
    readOptions s given (arg :: value :: rest) = readOptions s g rest := by
  rw [readOptions, hread]
  simp only [hvalue, hadd, if_true, Option.bind_some]

theorem readOptions_of_not_isValue (hread : s.read arg = .option o none)
    (hvalue : isValue value = false) (rest : List String) :
    readOptions s given (arg :: value :: rest) = none := by
  rw [readOptions, hread]
  simp only [hvalue, Bool.false_eq_true, if_false]

theorem addValue?_of_new (hnew : given.lookup o = none) (hvalue : value.isEmpty = false) :
    addValue? given o value = some ((o, value) :: given) := by
  unfold addValue?
  rw [hnew, hvalue, Bool.and_false]
  rfl

end Options

theorem ofArguments?_checkLine {settings : String} (hsettings : settings.isEmpty = false) :
    Request.ofArguments? (checkLine settings) =
      if isValue settings then some (.checkSettings (some settings)) else none := by
  have hread : (Scope.ofCommand .checkSettings).read "-c" = .option .settings none := by
    decide +kernel
  show Command.read? .checkSettings ["-c", settings] = _
  unfold Command.read?
  split_ifs with hvalue
  · rw [readOptions_value hread hvalue (addValue?_of_new rfl hsettings)]
    rfl
  · rw [readOptions_of_not_isValue hread (Bool.eq_false_iff.2 hvalue)]

theorem ofArguments?_printLine {c : Command} (hc : c = .stubs ∨ c = .structs)
    {input settings : String} (hinput : input.isEmpty = false) (hvalue : isValue input = true)
    (hsettings : settings.isEmpty = false) :
    Request.ofArguments? (printLine c input settings) =
      if isValue settings then
        c.request? [(.settings, settings), (.output, "-"), (.input, input)]
      else none := by
  have hreads : (Scope.ofCommand c).read "-i" = .option .input none ∧
      (Scope.ofCommand c).read "-o" = .option .output none ∧
      (Scope.ofCommand c).read "-c" = .option .settings none := by
    rcases hc with rfl | rfl <;> decide +kernel
  obtain ⟨hreadInput, hreadOutput, hreadSettings⟩ := hreads
  have hcommand : Request.ofArguments? (printLine c input settings) =
      c.read? ["-i", input, "-o", "-", "-c", settings] := by
    rcases hc with rfl | rfl <;> rfl
  rw [hcommand]
  unfold Command.read?
  rw [readOptions_value hreadInput hvalue (addValue?_of_new rfl hinput),
    readOptions_value hreadOutput (by decide +kernel) (addValue?_of_new rfl rfl)]
  split_ifs with hread
  · rw [readOptions_value hreadSettings hread (addValue?_of_new rfl hsettings)]
    rfl
  · rw [readOptions_of_not_isValue hreadSettings (Bool.eq_false_iff.2 hread)]

/-! ## Runs -/

theorem CommandFault.exitCode?_ne_zero (fault : CommandFault) : fault.exitCode? ≠ some 0 := by
  have hone : some (1 : UInt32) ≠ some 0 := by decide
  cases fault with
  | crash => decide
  | endlessSearch => nofun
  | _ => exact hone

theorem FileTree.isEmpty_of_read? {t : FileTree} {path text : String}
    (h : t.read? path = some text) : path.isEmpty = false := by
  unfold read? locate? at h
  cases hpath : path.isEmpty with
  | false => rfl
  | true =>
    rw [hpath] at h
    exact absurd h nofun

namespace Workspace

variable {w : Workspace} {settings input text schema : String} {args : List String}

/-- The settings that a text holds, when they have no fault. -/
def Usable (text : String) (s : Settings) : Prop :=
  Settings.ofText? text = some s ∧ s.fault? = none

theorem Usable.unique {s s' : Settings} (h : Usable text s) (h' : Usable text s') : s = s' :=
  Option.some.inj (h.1.symm.trans h'.1)

/-- The settings that a text holds can be used, and the search for the use of an import in what is
made with them never ends. -/
def NeverMade (text : String) (body : Settings → FileBody) (imports : Settings → List String) :
    Prop :=
  ∃ s, Usable text s ∧ (body s).Endless (imports s)

/-- A request fails when its action does. -/
theorem run_error {request : Request} {fault : CommandFault} {w' : Workspace}
    (hrequest : Request.ofArguments? args = some request)
    (h : act (perform request) w = (.error fault, w')) : (w.run args).1 = fault.exitCode? := by
  rw [run_of_some hrequest, h]

theorem run_zero {request : Request} {w' : Workspace}
    (hrequest : Request.ofArguments? args = some request)
    (h : act (perform request) w = (.ok (), w')) : w.run args = (some 0, w') := by
  rw [run_of_some hrequest, h]

/-- The settings in a file can be used, or they are refused when they are read or when they are
checked. -/
theorem usable_cases (h : w.tree.read? settings = some text) :
    (∃ s, Usable text s ∧ w.tree.settingsIn settings = .ok s) ∨
      (∀ s, ¬Usable text s) ∧ (w.tree.settingsIn settings = .error (.load settings) ∨
        ∃ s fault, w.tree.settingsIn settings = .ok s ∧ s.fault? = some fault) := by
  have hsettings : w.tree.settingsIn settings =
      (Settings.ofText? text).elim (.error (.load settings)) .ok := by
    unfold FileTree.settingsIn
    rw [h, Option.bind_some]
  cases htext : Settings.ofText? text with
  | none =>
    rw [htext] at hsettings
    refine .inr ⟨fun s hs => ?_, .inl hsettings⟩
    cases htext.symm.trans hs.1
  | some s =>
    rw [htext] at hsettings
    cases hfault : s.fault? with
    | none => exact .inl ⟨s, ⟨htext, hfault⟩, hsettings⟩
    | some fault =>
      refine .inr ⟨fun s' hs => ?_, .inr ⟨s, fault, hsettings, hfault⟩⟩
      obtain rfl := Option.some.inj (htext.symm.trans hs.1)
      cases hfault.symm.trans hs.2

/-- A check of settings succeeds when they can be used and their types can be printed. -/
theorem run_check (hrequest : Request.ofArguments? args = some (.checkSettings (some settings)))
    (hread : w.tree.read? settings = some text) :
    ((w.run args).1 = some 0 ↔ w.takesOutput = true ∧ ∃ s, Usable text s) ∧
    ∀ s, Usable text s → w.takesOutput = true →
      (w.run args).2.output = w.output ++ (s.typeTable.toJson.text ++ "\n") := by
  obtain ⟨notes, hact⟩ := act_checkSettings (some settings) w
  rw [Option.getD_some] at hact
  rcases usable_cases hread with ⟨s, hs, hsettings⟩ | ⟨hno, hrefused⟩
  · simp only [hsettings, hs.2] at hact
    cases htakes : w.takesOutput with
    | false =>
      rw [htakes, if_neg Bool.false_ne_true] at hact
      refine ⟨iff_of_false ?_ fun h => Bool.false_ne_true h.1,
        fun _ _ h => absurd h Bool.false_ne_true⟩
      rw [run_error hrequest hact]
      exact CommandFault.exitCode?_ne_zero _
    | true =>
      rw [htakes, if_pos rfl] at hact
      have hrun := run_zero hrequest hact
      refine ⟨iff_of_true (by rw [hrun]) ⟨rfl, s, hs⟩, fun s' hs' _ => ?_⟩
      rw [hrun, hs.unique hs']
  · refine ⟨iff_of_false ?_ fun h => h.2.elim hno, fun s hs => absurd hs (hno s)⟩
    rcases hrefused with hsettings | ⟨s, fault, hsettings, hfault⟩
    · simp only [hsettings] at hact
      rw [run_error hrequest hact]
      exact CommandFault.exitCode?_ne_zero _
    · simp only [hsettings, hfault] at hact
      rw [run_error hrequest hact]
      exact CommandFault.exitCode?_ne_zero _

/-- Nothing is made with settings that cannot be used. -/
theorem generated_of_not_usable (mode : Mode) {files : RunFiles}
    (hfiles : files.settings? = some settings) (hread : w.tree.read? settings = some text)
    (hno : ∀ s, ¬Usable text s) :
    ∃ fault, w.tree.generated mode files = .error fault ∧ fault.exitCode? = some 1 := by
  have hin : w.tree.settings files.settings? = w.tree.settingsIn settings := by
    rw [hfiles, FileTree.settings]
  unfold FileTree.generated
  rcases usable_cases hread with ⟨s, hs, -⟩ | ⟨-, hsettings | ⟨s, fault, hsettings, hfault⟩⟩
  · exact absurd hs (hno s)
  · rw [hin, hsettings]
    exact ⟨_, rfl, rfl⟩
  · rw [hin, hsettings]
    simp only [hfault]
    exact ⟨_, rfl, rfl⟩

/-- What is made with settings that can be used is what the mode generates. -/
theorem generated_of_usable (mode : Mode) {files : RunFiles} {s : Settings}
    (hfiles : files.settings? = some settings) (hread : w.tree.read? settings = some text)
    (hschema : w.tree.read? files.input = some schema) (hs : Usable text s) :
    w.tree.generated mode files = (mode.generate s schema).mapError (.ofRun files.input) := by
  have hsettings : w.tree.settings files.settings? = .ok s := by
    rw [hfiles, FileTree.settings, FileTree.settingsIn, hread, Option.bind_some, hs.1,
      Option.elim_some]
  unfold FileTree.generated
  rw [hsettings]
  simp only [hs.2, hschema]
  cases mode.generate s schema <;> rfl

/-- A file is delivered to the output by being printed. -/
theorem act_deliver_print {mode : Mode} {files : RunFiles} (houtput : files.output = "-")
    (hreport : files.report? = none) (file : GeneratedFile) (w : Workspace) :
    act (deliver mode files file) w =
      if w.takesOutput then (.ok (), { w with output := w.output ++ file.source })
      else (.error .print, w) := by
  rw [deliver, act_bind, writeOutput, houtput, hreport, if_pos rfl, act_print]
  cases w.takesOutput <;> rfl

/-- A run that makes a file of a body succeeds when the settings can be used, the body has its file and
the file can be printed; it never ends when the settings can be used and the body has no file. -/
theorem run_print {mode : Mode} (body : Settings → FileBody) {package : Settings → String}
    {imports : Settings → List String}
    (hrequest : Request.ofArguments? args =
      some (.generate mode ⟨input, "-", some settings, none⟩))
    (hread : w.tree.read? settings = some text) (hschema : w.tree.read? input = some schema)
    (hmade : ∀ s, mode.generate s schema = (body s).file (package s) (imports s)) :
    ((w.run args).1 = some 0 ↔
      (w.takesOutput = true ∧ ∃ s, Usable text s) ∧ ¬NeverMade text body imports) ∧
    ((w.run args).1 = none ↔ NeverMade text body imports) ∧
    ∀ s file, Usable text s → w.takesOutput = true →
      (body s).file (package s) (imports s) = .ok file →
      (w.run args).2.output = w.output ++ file.source := by
  rcases usable_cases hread with ⟨s, hs, -⟩ | ⟨hno, -⟩
  · have hnever : NeverMade text body imports ↔ (body s).Endless (imports s) :=
      ⟨fun ⟨s', hs', hends⟩ => hs.unique hs' ▸ hends, fun h => ⟨s, hs, h⟩⟩
    have hgenerated := @generated_of_usable w settings text schema mode
      ⟨input, "-", some settings, none⟩ s rfl hread hschema hs
    rw [hmade] at hgenerated
    rw [hnever]
    cases hfile : (body s).file (package s) (imports s) with
    | error fault =>
      obtain ⟨rfl, hends⟩ := FileBody.file_eq_error_iff.1 hfile
      rw [hfile] at hgenerated
      rw [run_error hrequest (act_generate_of_error hgenerated)]
      refine ⟨iff_of_false (CommandFault.exitCode?_ne_zero _) fun h => h.2 hends,
        iff_of_true rfl hends, fun s' file hs' _ hok => ?_⟩
      rw [← hs.unique hs', hfile] at hok
      cases hok
    | ok file =>
      have hends := (FileBody.file_eq_ok_iff.1 hfile).1
      rw [hfile] at hgenerated
      have hact := (act_generate_of_ok hgenerated).trans (act_deliver_print rfl rfl file w)
      cases htakes : w.takesOutput with
      | false =>
        rw [htakes, if_neg Bool.false_ne_true] at hact
        rw [run_error hrequest hact]
        exact ⟨iff_of_false (CommandFault.exitCode?_ne_zero _) fun h => Bool.false_ne_true h.1.1,
          iff_of_false (Option.some_ne_none _) hends, fun _ _ _ h => absurd h Bool.false_ne_true⟩
      | true =>
        rw [htakes, if_pos rfl] at hact
        rw [run_zero hrequest hact]
        refine ⟨iff_of_true rfl ⟨⟨rfl, s, hs⟩, hends⟩, iff_of_false (Option.some_ne_none _) hends,
          fun s' file' hs' _ hok => ?_⟩
        rw [← hs.unique hs', hfile] at hok
        rw [Except.ok.inj hok]
  · obtain ⟨fault, hgenerated, hcode⟩ := @generated_of_not_usable w settings text mode
      ⟨input, "-", some settings, none⟩ rfl hread hno
    rw [run_error hrequest (act_generate_of_error hgenerated)]
    exact ⟨iff_of_false (CommandFault.exitCode?_ne_zero _) fun h => h.1.2.elim hno,
      iff_of_false (hcode ▸ Option.some_ne_none _) fun ⟨s, hs, _⟩ => hno s hs,
      fun s _ hs => absurd hs (hno s)⟩

/-- Structs and stubs are generated with settings exactly when a check of the settings succeeds and no
search for the use of an import goes on for ever, which is how a run goes when the check succeeds and
the run does not. A check that succeeds prints the types in force: every name that it prints with a Go
type is declared with that type in structs, and so are its `Option` and `Vec` with what is made of that
type. -/
theorem check_agrees (w : Workspace) (settings input text schema : String)
    (hinput : isValue input = true) (hread : w.tree.read? settings = some text)
    (hschema : w.tree.read? input = some schema) :
    ((w.run (printLine .structs input settings)).1 = some 0 ↔
      (w.run (checkLine settings)).1 = some 0 ∧
        ¬NeverMade text (FileBody.structs · schema) (·.structs.imports)) ∧
    ((w.run (printLine .stubs input settings)).1 = some 0 ↔
      (w.run (checkLine settings)).1 = some 0 ∧
        ¬NeverMade text (FileBody.stubs · none schema) (·.client.imports)) ∧
    ((w.run (checkLine settings)).1 = some 0 →
      ((w.run (printLine .structs input settings)).1 = none ↔
        NeverMade text (FileBody.structs · schema) (·.structs.imports)) ∧
      ((w.run (printLine .stubs input settings)).1 = none ↔
        NeverMade text (FileBody.stubs · none schema) (·.client.imports)) ∧
      ∃ s mappings, Usable text s ∧ s.typeTable.toJson = .object mappings ∧
        (w.run (checkLine settings)).2.output =
          w.output ++ ((JsonValue.object mappings).text ++ "\n") ∧
        (∀ file, Mode.structs.run s schema = .ok file →
          (w.run (printLine .structs input settings)).2.output = w.output ++ file.source) ∧
        ∀ n t, (n, JsonValue.string t) ∈ mappings → Rust.IsTypeName n →
          GeneratedFile.DeclaresAll s schema n t ∧
          GeneratedFile.DeclaresAll s schema ("Option<" ++ n ++ ">") (GoType.optionalText t) ∧
          GeneratedFile.DeclaresAll s schema ("Vec<" ++ n ++ ">") ("[]" ++ t)) := by
  have hnonempty := FileTree.isEmpty_of_read? hread
  have hcheckLine := ofArguments?_checkLine hnonempty
  have hstructsLine := ofArguments?_printLine (.inr rfl) (FileTree.isEmpty_of_read? hschema) hinput
    hnonempty
  have hstubsLine := ofArguments?_printLine (.inl rfl) (FileTree.isEmpty_of_read? hschema) hinput
    hnonempty
  by_cases hvalue : isValue settings = true
  · rw [if_pos hvalue] at hcheckLine hstructsLine hstubsLine
    obtain ⟨hstructs, hstructsNever, hprinted⟩ := run_print (FileBody.structs · schema) hstructsLine
      hread hschema fun _ => rfl
    obtain ⟨hstubs, hstubsNever, -⟩ := run_print (FileBody.stubs · none schema) hstubsLine
      hread hschema fun _ => rfl
    obtain ⟨hcheck, houtput⟩ := run_check hcheckLine hread
    rw [hcheck]
    refine ⟨hstructs, hstubs, fun ⟨htakes, s, hs⟩ => ⟨hstructsNever, hstubsNever, s, _, hs, rfl,
      houtput s hs htakes, fun file hfile => ?_, fun n t ht hn => ?_⟩⟩
    · rw [Mode.run_of_fault? hs.2] at hfile
      exact hprinted s file hs htakes hfile
    · obtain ⟨⟨name, target⟩, hentry, heq⟩ := List.mem_map.1 ht
      obtain ⟨hname, htarget⟩ := Prod.mk.inj heq
      obtain rfl : name = n := hname
      obtain rfl : target.text = t := JsonValue.string.inj htarget
      exact GeneratedFile.declaresAll_of_entry hn hentry schema
  · -- no command takes the name of the file
    rw [if_neg hvalue] at hcheckLine hstructsLine hstubsLine
    have htwo : some (2 : UInt32) ≠ some 0 := by decide
    simp only [run_of_none hcheckLine, run_of_none hstructsLine, run_of_none hstubsLine]
    exact ⟨iff_of_false htwo fun h => htwo h.1, iff_of_false htwo fun h => htwo h.1,
      fun h => absurd h htwo⟩

/-- Settings that map a name to an indirect type. -/
def hashSettings : String := "[types]\nHash = \" * [] common.Hash\"\n"

/-- A schema with that name in three fields. -/
def hashSchema : String :=
  "pub struct S \x7b pub a: Hash, pub b: Option<Hash>, pub c: Vec<Hash> \x7d\n"

def hashFiles : Workspace :=
  .ofTree (.ofFiles ["work"] [("p.toml", hashSettings), ("a.rs", hashSchema)])

theorem check_agrees_hashFiles :
    isValue "a.rs" = true ∧ hashFiles.tree.read? "p.toml" = some hashSettings ∧
      hashFiles.tree.read? "a.rs" = some hashSchema ∧
      (hashFiles.run (checkLine "p.toml")).1 = some 0 ∧
      (hashFiles.run (printLine .structs "a.rs" "p.toml")).1 = some 0 ∧
      (hashFiles.run (printLine .stubs "a.rs" "p.toml")).1 = some 0 ∧
      (Record.readAll hashSchema).length = 1 ∧
      ∃ s, Usable hashSettings s ∧
        GeneratedFile.DeclaresAll s hashSchema "Hash" "*[]common.Hash" ∧
        GeneratedFile.DeclaresAll s hashSchema "Option<Hash>" "*[]common.Hash" ∧
        GeneratedFile.DeclaresAll s hashSchema "Vec<Hash>" "[]*[]common.Hash" := by
  have hinput : isValue "a.rs" = true := by decide +kernel
  have hread : hashFiles.tree.read? "p.toml" = some hashSettings := by decide +kernel
  have hschema : hashFiles.tree.read? "a.rs" = some hashSchema := by decide +kernel
  have hcheck : (hashFiles.run (checkLine "p.toml")).1 = some 0 := by decide +kernel
  have hsettings : (Settings.ofText? hashSettings).map (fun s =>
      (s.types, (s.structs.imports ++ s.client.imports).all fun spec =>
        (Go.Import.ofSpec spec).name != "")) = some ([("Hash", " * [] common.Hash")], true) := by
    decide +kernel
  have hentry : ("Hash", GoType.pointer (.slice (.named "common.Hash"))) ∈
      (TypeTable.standard.withOverrides [("Hash", " * [] common.Hash")]).entries := by
    decide +kernel
  obtain ⟨hstructs, hstubs, hprinted⟩ :=
    check_agrees hashFiles "p.toml" "a.rs" hashSettings hashSchema hinput hread hschema
  obtain ⟨-, -, s, mappings, hs, hjson, -, -, hdeclared⟩ := hprinted hcheck
  rw [hs.1] at hsettings
  obtain ⟨htypes, hnames⟩ := Prod.mk.inj (Option.some.inj hsettings)
  rw [← htypes] at hentry
  have hmade (body : Settings → FileBody) {imports : Settings → List String}
      (himports : ∀ spec ∈ imports s, spec ∈ s.structs.imports ++ s.client.imports) :
      ¬NeverMade hashSettings body imports := by
    rintro ⟨s', hs', hends⟩
    obtain rfl := hs.unique hs'
    exact FileBody.not_endless (fun spec hspec =>
      bne_iff_ne.1 (List.all_eq_true.1 hnames spec (himports spec hspec))) hends
  obtain rfl := JsonValue.object.inj hjson
  have hall := hdeclared "Hash" "*[]common.Hash" (List.mem_map.2 ⟨_, hentry, rfl⟩)
    ⟨by decide +kernel, by decide +kernel⟩
  exact ⟨hinput, hread, hschema, hcheck,
    hstructs.2 ⟨hcheck, hmade _ fun _ => List.mem_append_left _⟩,
    hstubs.2 ⟨hcheck, hmade _ fun _ => List.mem_append_right _⟩, by decide +kernel, s, hs, hall⟩

/-- Settings with an import that is called nothing, and an empty schema. -/
def namelessFiles : Workspace :=
  .ofTree (.ofFiles ["work"] [("p.toml", "[structs]\nimports = [\"\"]\n"), ("a.rs", "")])

/-- The check succeeds with such settings, and structs are never made with them. -/
theorem structs_never_printed :
    ¬∀ (w : Workspace) settings input text schema, isValue input = true →
      w.tree.read? settings = some text → w.tree.read? input = some schema →
      ((w.run (checkLine settings)).1 = some 0 ↔
        (w.run (printLine .structs input settings)).1 = some 0) := by
  intro h
  have hcheck : (namelessFiles.run (checkLine "p.toml")).1 = some 0 := by decide +kernel
  have hstructs : (namelessFiles.run (printLine .structs "a.rs" "p.toml")).1 = none := by
    decide +kernel
  have hiff := h namelessFiles "p.toml" "a.rs" _ _ (by decide +kernel) rfl rfl
  exact absurd (hstructs.symm.trans (hiff.1 hcheck)) nofun

end Workspace

end RpcBindings.CommandLine
