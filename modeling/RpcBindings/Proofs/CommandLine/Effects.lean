import RpcBindings.CommandLine.Session

/-!
What a command does to a file tree and its streams, step by step.

Each step has its equation: what it gives, and the workspace that it leaves. An action is its steps
one after the other, up to the first that fails (`act_bind`). Main statement: all that `generate` does
before its output is a function of the files that are there (`act_generate`).
-/

namespace RpcBindings.CommandLine

/-! ## What is read -/

namespace FileTree

/-- The settings in a file. -/
def settingsIn (t : FileTree) (path : String) : Except CommandFault Settings :=
  ((t.read? path).bind Settings.ofText?).elim (.error (.load path)) .ok

/-- The settings in force, which a file that is named has, or else the standard one if it is there. -/
def settings (t : FileTree) : Option String → Except CommandFault Settings
  | some path => t.settingsIn path
  | none => if t.isFile standardPath then t.settingsIn standardPath else .ok {}

/-- What a run makes of the files of a tree. -/
def generated (t : FileTree) (mode : Mode) (files : RunFiles) :
    Except CommandFault GeneratedFile :=
  match t.settings files.settings? with
  | .error fault => .error fault
  | .ok s =>
    match s.fault?, t.read? files.input with
    | some fault, _ => .error (.settings fault)
    | none, none => .error (.readInput files.input)
    | none, some source =>
      match mode.generate s source with
      | .error fault => .error (.ofRun files.input fault)
      | .ok file => .ok file

end FileTree

/-- Writes a generated file, and then the report that is wanted. -/
def deliver {m : Type → Type} [Monad m] [Host m] (mode : Mode) (files : RunFiles)
    (file : GeneratedFile) : Action m Unit := do
  writeOutput files.output file.source
  match files.report? with
  | none => pure ()
  | some path =>
    require (.writeReport path) (Host.write path ((file.report mode files.input).text ++ "\n"))

namespace Workspace

/-- What an action gives in a workspace, and the workspace that it leaves. -/
def act {α : Type} (x : Action (StateM Workspace) α) (w : Workspace) :
    Except CommandFault α × Workspace :=
  StateT.run (ExceptT.run x) w

/-! ## Steps -/

section Steps

variable {α β : Type} (w : Workspace)

@[simp] theorem act_note (line : String) :
    act (liftM (Host.note (m := StateM Workspace) line)) w =
      (.ok (), { w with notes := w.notes ++ [line] }) := rfl

@[simp] theorem run_read? (path : String) :
    StateT.run (Host.read? (m := StateM Workspace) path) w = (w.tree.read? path, w) := rfl

/-- An action goes on where its first part ends, unless that fails. -/
theorem act_bind (x : Action (StateM Workspace) α) (f : α → Action (StateM Workspace) β) :
    act (x >>= f) w =
      match act x w with
      | (.ok a, w') => act (f a) w'
      | (.error fault, w') => (.error fault, w') := by
  unfold act ExceptT.run StateT.run
  simp only [bind, ExceptT.bind, ExceptT.mk, StateT.bind, ExceptT.bindCont]
  cases x w with
  | mk result w' => cases result <;> rfl

/-- A step that cannot fail. -/
theorem act_lift_bind (step : StateM Workspace α) (f : α → Action (StateM Workspace) β) :
    act (ExceptT.lift step >>= f) w = act (f (step.run w).1) (step.run w).2 := by
  rw [act_bind]
  rfl

theorem act_require (fault : CommandFault) (step : StateM Workspace Bool) :
    act (require fault step) w =
      (if (step.run w).1 then .ok () else .error fault, (step.run w).2) := by
  show act (ExceptT.lift step >>= fun b => unless b do throw fault) w = _
  rw [act_lift_bind]
  cases (step.run w).1 <;> rfl

theorem act_obtain? (fault : CommandFault) (step : StateM Workspace (Option α)) :
    act (obtain? fault step) w = ((step.run w).1.elim (.error fault) .ok, (step.run w).2) := by
  show act (ExceptT.lift step >>= fun _ => _) w = _
  rw [act_lift_bind]
  cases (step.run w).1 <;> rfl

/-- What is printed is there behind what was there before, if the output takes it. -/
theorem act_print (fault : CommandFault) (text : String) :
    act (require fault (Host.print text)) w =
      if w.takesOutput then (.ok (), { w with output := w.output ++ text })
      else (.error fault, w) := by
  rw [act_require]
  show (if (if w.takesOutput then _ else _ : Bool × Workspace).1 then _ else _,
    (if w.takesOutput then _ else _ : Bool × Workspace).2) = _
  cases w.takesOutput <;> rfl

theorem act_check (s : Settings) :
    act (check s) w = (s.fault?.elim (.ok ()) fun fault => .error (.settings fault), w) := by
  unfold check
  cases s.fault? <;> rfl

theorem act_loadFrom (path : String) : act (loadFrom path) w = (w.tree.settingsIn path, w) := by
  unfold loadFrom
  rw [act_obtain?]
  rfl

/-- Loading settings changes nothing. -/
theorem act_load (path? : Option String) : act (load path?) w = (w.tree.settings path?, w) := by
  cases path? with
  | some path => exact act_loadFrom w path
  | none =>
    show act (ExceptT.lift (Host.isFile (m := StateM Workspace) standardPath) >>= fun b =>
      if b then loadFrom standardPath else return {}) w = _
    rw [act_lift_bind]
    show act (if w.tree.isFile standardPath then _ else _) w = (FileTree.settings _ none, w)
    unfold FileTree.settings
    split
    · exact act_loadFrom w standardPath
    · rfl

end Steps

/-! ## Runs -/

/-- A run makes its file of the tree that it finds, and then delivers it. -/
theorem act_generate (mode : Mode) (files : RunFiles) (w : Workspace) :
    act (generate mode files) w =
      match w.tree.generated mode files with
      | .error fault => (.error fault, w)
      | .ok file => act (deliver mode files file) w := by
  unfold generate FileTree.generated
  rw [act_bind, act_load]
  cases w.tree.settings files.settings? with
  | error fault => rfl
  | ok s =>
    simp only [act_bind, act_check]
    cases s.fault? with
    | some fault => rfl
    | none =>
      simp only [Option.elim_none, act_obtain?, run_read?]
      cases w.tree.read? files.input with
      | none => rfl
      | some source =>
        simp only [Option.elim_some]
        cases mode.generate s source <;> rfl

theorem act_generate_of_error {mode : Mode} {files : RunFiles} {w : Workspace} {fault : CommandFault}
    (h : w.tree.generated mode files = .error fault) :
    act (generate mode files) w = (.error fault, w) := by
  rw [act_generate, h]

theorem act_generate_of_ok {mode : Mode} {files : RunFiles} {w : Workspace} {file : GeneratedFile}
    (h : w.tree.generated mode files = .ok file) :
    act (generate mode files) w = act (deliver mode files file) w := by
  rw [act_generate, h]

/-- A check of settings prints the types that they map when they have no fault, and nothing else. -/
theorem act_checkSettings (path? : Option String) (w : Workspace) :
    ∃ notes, act (checkSettings path?) w =
      match w.tree.settingsIn (path?.getD standardPath) with
      | .error fault => (.error fault, { w with notes })
      | .ok s =>
        match s.fault? with
        | some fault => (.error (.settings fault), { w with notes })
        | none =>
          if w.takesOutput then
            (.ok (), { w with notes, output := w.output ++ (s.typeTable.toJson.text ++ "\n") })
          else (.error .crash, { w with notes }) := by
  unfold checkSettings
  simp only [act_bind, act_note, act_loadFrom]
  cases w.tree.settingsIn (path?.getD standardPath) with
  | error fault => exact ⟨_, rfl⟩
  | ok s =>
    simp only [act_check]
    cases s.fault? with
    | some fault => exact ⟨_, rfl⟩
    | none =>
      simp only [Option.elim_none, act_print]
      cases w.takesOutput <;> exact ⟨_, rfl⟩

/-- A command line that cannot be read. -/
theorem run_of_none {args : List String} (h : Request.ofArguments? args = none) (w : Workspace) :
    w.run args = (some 2, { w with notes := w.notes ++ [usage] }) := by
  unfold Workspace.run CommandLine.run
  rw [h]
  rfl

/-- The exit code and the last note of a command line say what became of its request. -/
theorem run_of_some {args : List String} {request : Request}
    (h : Request.ofArguments? args = some request) (w : Workspace) :
    w.run args =
      match act (perform request) w with
      | (.ok (), w') => (some 0, w')
      | (.error fault, w') =>
        (fault.exitCode?, { w' with notes := w'.notes ++
          (fault.message?.map ("Error: " ++ ·)).toList }) := by
  unfold Workspace.run CommandLine.run act
  rw [h]
  simp only [StateT.run_bind]
  cases StateT.run (ExceptT.run (perform request : Action (StateM Workspace) Unit)) w with
  | mk result w' =>
    cases result with
    | ok _ => rfl
    | error fault =>
      cases fault with
      | crash | endlessSearch =>
        exact congrArg (fun notes => (CommandFault.exitCode? _, { w' with notes }))
          (List.append_nil w'.notes).symm
      | _ => rfl

end Workspace

end RpcBindings.CommandLine
