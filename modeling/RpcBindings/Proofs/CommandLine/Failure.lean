import RpcBindings.Proofs.CommandLine.Effects

/-!
Commands that fail.

Main statement: a command that fails leaves files and output as they were, unless all that it could
not write is its report (`spares_of_run_failed`). Such a run has written its output already.
-/

namespace RpcBindings.CommandLine

/-! ## Directories -/

namespace FileTree

theorem files_makeDir? {t t' : FileTree} {r : Route} (h : t.makeDir? r = some t') :
    t'.files = t.files := by
  unfold makeDir? at h
  split at h
  · rw [← Option.some.inj h]
  · split at h
    · simp at h
    · rw [← Option.some.inj h]

theorem files_makeDirsFrom? {t t' : FileTree} {r : Route} {es : List String}
    (h : t.makeDirsFrom? r es = some t') : t'.files = t.files := by
  induction es generalizing t r with
  | nil =>
    rw [makeDirsFrom?] at h
    rw [← Option.some.inj h]
  | cons e es ih =>
    rw [makeDirsFrom?] at h
    split at h
    · simp at h
    · split at h
      · simp at h
      · rename_i hmade
        exact (ih h).trans (files_makeDir? hmade)

/-- Making directories changes no file. -/
theorem files_makeDirs? {t t' : FileTree} {path : String} (h : t.makeDirs? path = some t') :
    t'.files = t.files := by
  unfold makeDirs? at h
  exact files_makeDirsFrom? h

end FileTree

namespace Workspace

/-! ## What is left alone -/

/-- No file is new or changed and nothing has been printed since. Directories and notes may be new. -/
def Spares (w w' : Workspace) : Prop :=
  w'.tree.files = w.tree.files ∧ w'.output = w.output

theorem Spares.refl (w : Workspace) : w.Spares w := ⟨rfl, rfl⟩

/-- Directories are made without touching a file, also when that fails. -/
theorem spares_makeDirs (w : Workspace) (path : String) :
    w.Spares (StateT.run (Host.makeDirs (m := StateM Workspace) path) w).2 := by
  show w.Spares (change (w.tree.makeDirs? path) w).2
  cases h : w.tree.makeDirs? path with
  | none => exact Spares.refl w
  | some t => exact ⟨FileTree.files_makeDirs? h, rfl⟩

/-- A file is written or nothing happens. -/
theorem act_write (fault : CommandFault) (path text : String) (w : Workspace) :
    act (require fault (Host.write path text)) w =
      match w.tree.write? path text with
      | some tree => (.ok (), { w with tree })
      | none => (.error fault, w) := by
  rw [act_require]
  show (if (change (w.tree.write? path text) w).1 then _ else _,
    (change (w.tree.write? path text) w).2) = _
  cases w.tree.write? path text <;> rfl

/-! ## Delivery -/

/-- An output that cannot be written leaves no trace but directories. -/
theorem writeOutput_cases (path text : String) (w : Workspace) :
    ∃ w', act (writeOutput path text) w = (.ok (), w') ∨
      ∃ fault, act (writeOutput path text) w = (.error fault, w') ∧ w.Spares w' := by
  have writes (w' : Workspace) (hw : w.Spares w') :
      ∃ w'', act (require (.write path) (Host.write path text)) w' = (.ok (), w'') ∨
        ∃ fault, act (require (.write path) (Host.write path text)) w' = (.error fault, w'') ∧
          w.Spares w'' := by
    rw [act_write]
    cases w'.tree.write? path text with
    | some tree => exact ⟨_, .inl rfl⟩
    | none => exact ⟨_, .inr ⟨_, rfl, hw⟩⟩
  unfold writeOutput
  split
  · rw [act_print]
    cases w.takesOutput with
    | true => exact ⟨_, .inl rfl⟩
    | false => exact ⟨_, .inr ⟨_, rfl, Spares.refl w⟩⟩
  · cases Path.parent? path with
    | none => exact writes w (Spares.refl w)
    | some dir =>
      have hmade := spares_makeDirs w dir
      rw [act_bind, act_require]
      cases (StateT.run (Host.makeDirs (m := StateM Workspace) dir) w).1 with
      | false => exact ⟨_, .inr ⟨_, rfl, hmade⟩⟩
      | true => exact writes _ hmade

/-- What is left of a run that makes its file: it is delivered, it could not be written, or it is there
and its report could not be written. -/
theorem deliver_cases (mode : Mode) (files : RunFiles) (file : GeneratedFile) (w : Workspace) :
    ∃ w', act (deliver mode files file) w = (.ok (), w') ∨
      (∃ fault, act (deliver mode files file) w = (.error fault, w') ∧ w.Spares w') ∨
      ∃ path, files.report? = some path ∧
        act (deliver mode { files with report? := none } file) w = (.ok (), w') ∧
        w'.tree.write? path ((file.report mode files.input).text ++ "\n") = none ∧
        act (deliver mode files file) w = (.error (.writeReport path), w') := by
  obtain ⟨w', hout | ⟨fault, hout, hw⟩⟩ := writeOutput_cases files.output file.source w
  · cases hreport : files.report? with
    | none =>
      refine ⟨w', .inl ?_⟩
      rw [deliver, act_bind, hout, hreport]
      rfl
    | some path =>
      have hplain : act (deliver mode { files with report? := none } file) w = (.ok (), w') := by
        rw [deliver, act_bind, hout]
        rfl
      have hrun : act (deliver mode files file) w =
          act (require (.writeReport path)
            (Host.write path ((file.report mode files.input).text ++ "\n"))) w' := by
        rw [deliver, act_bind, hout, hreport]
      rw [act_write] at hrun
      cases hwrite : w'.tree.write? path ((file.report mode files.input).text ++ "\n") with
      | some tree => exact ⟨_, .inl (by rw [hrun, hwrite])⟩
      | none => exact ⟨w', .inr (.inr ⟨path, rfl, hplain, hwrite, by rw [hrun, hwrite]⟩)⟩
  · refine ⟨w', .inr (.inl ⟨fault, ?_, hw⟩)⟩
    rw [deliver, act_bind, hout]

/-! ## Commands -/

/-- Checking settings prints nothing unless it succeeds. -/
theorem spares_checkSettings {path? : Option String} {fault : CommandFault} {w w' : Workspace}
    (h : act (checkSettings path?) w = (.error fault, w')) : w.Spares w' := by
  obtain ⟨notes, hact⟩ := act_checkSettings path? w
  rw [hact] at h
  split at h
  · exact (Prod.mk.inj h).2 ▸ Spares.refl w
  · split at h
    · exact (Prod.mk.inj h).2 ▸ Spares.refl w
    · split at h
      · exact absurd (Prod.mk.inj h).1 nofun
      · exact (Prod.mk.inj h).2 ▸ Spares.refl w

/-- A request that fails leaves files and output as they were, unless only its report is missing. -/
theorem spares_of_perform_failed {request : Request} {fault : CommandFault} {w w' : Workspace}
    (h : act (perform request) w = (.error fault, w')) :
    w.Spares w' ∨
      ∃ mode files path, request = .generate mode files ∧ files.report? = some path ∧
        fault = .writeReport path ∧
        act (generate mode { files with report? := none }) w = (.ok (), w') := by
  cases request with
  | help => exact absurd (Prod.mk.inj h).1 nofun
  | version => exact absurd (Prod.mk.inj h).1 nofun
  | checkSettings path? => exact .inl (spares_checkSettings h)
  | generate mode files =>
    rw [perform] at h
    cases hmade : w.tree.generated mode files with
    | error _ =>
      rw [act_generate_of_error hmade] at h
      exact .inl ((Prod.mk.inj h).2 ▸ Spares.refl w)
    | ok file =>
      rw [act_generate_of_ok hmade] at h
      obtain ⟨w'', hok | ⟨fault', herror, hw⟩ | ⟨path, hpath, hplain, -, herror⟩⟩ :=
        deliver_cases mode files file w
      · rw [hok] at h
        cases h
      · rw [herror] at h
        exact .inl ((Prod.mk.inj h).2 ▸ hw)
      · rw [herror] at h
        obtain ⟨hfault, rfl⟩ := Prod.mk.inj h
        refine .inr ⟨mode, files, path, rfl, hpath, (Except.error.inj hfault).symm, ?_⟩
        have hmade' : w.tree.generated mode { files with report? := none } = .ok file := hmade
        rw [act_generate_of_ok hmade']
        exact hplain

/-- A command that does not exit with success leaves files and output as they were, or it has done
all but write its report. -/
theorem spares_of_run_failed (args : List String) (w : Workspace) (h : (w.run args).1 ≠ some 0) :
    w.Spares (w.run args).2 ∨
      ∃ mode files path delivered,
        Request.ofArguments? args = some (.generate mode files) ∧ files.report? = some path ∧
        act (generate mode { files with report? := none }) w = (.ok (), delivered) ∧
        w.run args = (some 1, { delivered with
          notes := delivered.notes ++ ["Error: Failed to write report: " ++ path] }) := by
  cases hrequest : Request.ofArguments? args with
  | none =>
    rw [run_of_none hrequest]
    exact .inl (Spares.refl w)
  | some request =>
    rw [run_of_some hrequest] at h ⊢
    cases hact : act (perform request) w with
    | mk result w' =>
      rw [hact] at h
      cases result with
      | ok _ => exact absurd rfl h
      | error fault =>
        rcases spares_of_perform_failed hact with
          hw | ⟨mode, files, path, rfl, hpath, rfl, hplain⟩
        · exact .inl hw
        · exact .inr ⟨mode, files, path, w', rfl, hpath, hplain, rfl⟩

/-- A directory that holds an empty schema. -/
def emptySchema : Workspace := .ofTree (.ofFiles ["home", "work"] [("a.rs", "")])

/-- A request for a report in a directory that is not there. -/
def reportNowhere : List String :=
  ["structs", "-i", "a.rs", "-o", "out.go", "--report", "no/report.json"]

theorem spares_of_run_failed_reportNowhere :
    (emptySchema.run reportNowhere).1 ≠ some 0 ∧
      (emptySchema.Spares (emptySchema.run reportNowhere).2 ∨
        ∃ mode files path delivered,
          Request.ofArguments? reportNowhere = some (.generate mode files) ∧
          files.report? = some path ∧
          act (generate mode { files with report? := none }) emptySchema = (.ok (), delivered) ∧
          emptySchema.run reportNowhere = (some 1, { delivered with
            notes := delivered.notes ++ ["Error: Failed to write report: " ++ path] })) :=
  have hfails : (emptySchema.run reportNowhere).1 ≠ some 0 := by decide +kernel
  ⟨hfails, spares_of_run_failed reportNowhere emptySchema hfails⟩

/-- The output is there when the report turns out not to be writable. -/
theorem output_precedes_report :
    ¬ ∀ (args : List String) (w : Workspace), (w.run args).1 ≠ some 0 → w.Spares (w.run args).2 := by
  intro h
  have hfiles := (h reportNowhere emptySchema (by decide +kernel)).1
  exact absurd hfiles (by decide +kernel)

end Workspace

end RpcBindings.CommandLine
