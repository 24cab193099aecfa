/-
# Before the first input

A run makes the directory of its output if it has several inputs, and then loads
settings and solutions. Loading reads files and looks up variables, and changes
nothing. So when the inputs are converted every file is as it was, and the tree
has some more directories at most; it has none more if the directory is there.

Key definitions: `Workspace.Quiet`.
Key theorems: `Config.load_quiet`, `Request.prepare_quiet`, `Request.begin_yields`,
`Request.begin_of_prepare`.
-/
import QuartoPretext.Proofs.CommandLine.Writes

namespace QuartoPretext

/-- An action that leaves the files as they are, wherever it is run. -/
def Workspace.Quiet {α : Type} (x : StateM Workspace α) : Prop := ∀ w, ∃ a, Yields x w a w.files

open Workspace

namespace Workspace.Quiet

variable {α β : Type}

theorem pure (a : α) : Quiet (pure a) := fun w => ⟨a, .pure a w⟩

theorem bind {x : StateM Workspace α} {f : α → StateM Workspace β} (hx : Quiet x) (hf : ∀ a, Quiet (f a)) :
    Quiet (x >>= f) := by
  intro w
  obtain ⟨a, told, hx⟩ := hx w
  obtain ⟨c, told', hf⟩ := hf a { w with told }
  refine ⟨c, told', ?_⟩
  show (f (x w).1) (x w).2 = _
  rw [hx]
  exact hf

theorem lift {x : StateM Workspace α} (hx : Quiet x) : Quiet (ExceptT.lift x : ExceptT Failure (StateM Workspace) α).run :=
  fun w => (hx w).imp' .ok fun _ h => h.lift

theorem throw (f : Failure) : Quiet (throw f : ExceptT Failure (StateM Workspace) α).run := fun w => ⟨.error f, .throw f w⟩

theorem ok (a : α) : Quiet (Pure.pure a : ExceptT Failure (StateM Workspace) α).run := fun w => ⟨.ok a, .ok a w⟩

theorem andThen {x : ExceptT Failure (StateM Workspace) α} {f : α → ExceptT Failure (StateM Workspace) β}
    (hx : Quiet x.run) (hf : ∀ a, Quiet (f a).run) : Quiet (x >>= f).run := by
  refine hx.bind (f := ExceptT.bindCont f) fun res => ?_
  cases res with
  | ok a => exact hf a
  | error e => exact pure _

/-- What leaves the files as they are, after a step that succeeds. -/
theorem after {x : ExceptT Failure (StateM Workspace) α} {f : α → ExceptT Failure (StateM Workspace) β} {w : Workspace}
    {files : FileTree} {a : α} (hx : Yields x.run w (.ok a) files) (hf : Quiet (f a).run) :
    ∃ c, Yields (x >>= f).run w c files := by
  obtain ⟨told, hx⟩ := hx
  obtain ⟨c, told', hf⟩ := hf { w with files, told }
  exact ⟨c, told', (run_bind hx f).trans hf⟩

theorem mapM {f : α → StateM Workspace β} (hf : ∀ a, Quiet (f a)) : ∀ as : List α, Quiet (as.mapM f)
  | [] => pure []
  | a :: as => by
    rw [List.mapM_cons]
    exact (hf a).bind fun b => (mapM hf as).bind fun bs => pure (b :: bs)

theorem read (path : Text) : Quiet (Host.read path) := fun w => ⟨_, w.told, rfl⟩

theorem lookup (name : Text) : Quiet (Host.lookup name) := fun w => ⟨_, w.told, rfl⟩

theorem workingDirectory : Quiet Host.workingDirectory := fun w => ⟨_, w.told, rfl⟩

theorem note (r : Request) (message : Message) : Quiet (r.note message) := fun w => ⟨(), .note r message w⟩

end Workspace.Quiet

/-! ### Settings -/

namespace Config

theorem firstPresent_quiet : ∀ paths : List Text, Quiet (firstPresent paths)
  | [] => .pure none
  | path :: more => by
    unfold firstPresent
    refine (Quiet.read path).bind fun found => ?_
    split
    · exact firstPresent_quiet more
    · exact .pure _

theorem ofText_quiet (s : Text) : Quiet (ofText s) := by
  unfold ofText
  split
  · exact .pure _
  · exact (Quiet.mapM (fun name => (Quiet.lookup name).bind fun value => .pure (name, value)) _).bind fun _ => .pure _

theorem ofFile_quiet (path : Text) (text : Except FileFault Text) : Quiet (ofFile path text) := by
  unfold ofFile
  split
  · exact (ofText_quiet _).bind fun _ => .pure _
  · exact .pure _

theorem ofPath_quiet (path : Text) : Quiet (ofPath path) := by
  unfold ofPath
  refine (Quiet.read path).bind fun text => ?_
  split
  · exact .pure _
  · exact .pure _
  · exact ofFile_quiet path text

theorem discover_quiet : Quiet discover := by
  unfold discover
  refine Quiet.workingDirectory.bind fun here => (firstPresent_quiet _).bind fun found => ?_
  split
  · exact ofFile_quiet _ _
  · exact .pure _

/-- Loading settings changes no file. -/
theorem load_quiet (path : Option Text) (overrides : Option Overrides) : Quiet (load path overrides) := by
  unfold load
  cases path with
  | none => cases overrides <;> exact discover_quiet.bind fun _ => .pure _
  | some p => cases overrides <;> exact (ofPath_quiet p).bind fun _ => .pure _

end Config

namespace Request

variable {r : Request} {w : Workspace} {b : Batch}

theorem readFile_quiet (path : Text) : Quiet (readFile path).run := fun w => ⟨_, readFile_yields path w⟩

theorem loadConfig_quiet (r : Request) : Quiet r.loadConfig.run := by
  unfold loadConfig
  refine (Config.load_quiet r.config (some r.overrides)).lift.andThen fun found => ?_
  cases found with
  | error f => exact .throw _
  | ok loaded =>
    dsimp only
    split
    · exact (Quiet.note r _).lift.andThen fun _ => .ok _
    · exact .ok _

theorem loadSolutions_quiet (r : Request) : Quiet r.loadSolutions.run := by
  unfold loadSolutions
  split
  · exact .ok none
  · exact (readFile_quiet _).andThen fun text => (Quiet.note r _).lift.andThen fun _ => .ok _

/-- Loading settings and solutions changes no file. -/
theorem prepare_quiet (r : Request) : Quiet r.prepare.run := by
  have hload : Quiet (do
      let config ← r.loadConfig
      return ⟨config, ← r.loadSolutions⟩ : ExceptT Failure (StateM Workspace) Batch).run :=
    (loadConfig_quiet r).andThen fun _ => (loadSolutions_quiet r).andThen fun _ => .ok _
  unfold prepare
  dsimp only
  split
  · exact (Quiet.throw _).andThen fun _ => by
      split
      · exact (Quiet.throw _).andThen fun _ => hload
      · exact hload
  · split
    · exact (Quiet.throw _).andThen fun _ => hload
    · exact hload

/-- The directory of the output is made, if there are several inputs. -/
theorem makeOutput_yields (r : Request) (w : Workspace) : ∃ res files, Yields r.makeOutput.run w res files ∧
    (files = w.files ∨ ∃ path, w.files.createDirectories w.directory path = .ok files) := by
  unfold makeOutput
  split
  · next path _ =>
    split
    · have hmake : Host.createDirectories path =
          Workspace.change fun w => w.files.createDirectories w.directory path := rfl
      cases hcreate : w.files.createDirectories w.directory path with
      | ok files =>
        have hhost : Yields (Host.createDirectories path) w (.ok ()) files := ⟨w.told, by
          rw [hmake, Workspace.change, hcreate]⟩
        exact ⟨_, files, hhost.lift.andThen fun told => .ok () { w with files, told }, .inr ⟨path, hcreate⟩⟩
      | error f =>
        have hhost : Yields (Host.createDirectories path) w (.error f) w.files := ⟨w.told, by
          rw [hmake, Workspace.change, hcreate]⟩
        exact ⟨_, w.files, hhost.lift.andThen fun told => .throw (.file path f) { w with told }, .inl rfl⟩
    · exact ⟨_, w.files, .ok () w, .inl rfl⟩
  · exact ⟨_, w.files, .ok () w, .inl rfl⟩

/-- A directory that is there is not made. -/
theorem makeOutput_of_directory (h : ∀ path ∈ r.output, w.files.isDirectory w.directory path) :
    (r.makeOutput : ExceptT Failure (StateM Workspace) Unit).run w = (.ok (), w) := by
  unfold makeOutput
  split
  · next path houtput =>
    split
    · have hcreate := FileTree.createDirectories_of_isDirectory (h path houtput)
      have hhost : (Host.createDirectories path : StateM Workspace _) w = (.ok (), w) := by
        show Workspace.change (fun w => w.files.createDirectories w.directory path) w = _
        rw [Workspace.change, hcreate]
      exact run_bind (run_lift hhost) _
    · rfl
  · rfl

/-- Before the inputs are converted, what is there stays, and nothing but directories is new. -/
theorem begin_yields (r : Request) (w : Workspace) : ∃ res files, Yields r.begin.run w res files ∧
    (∀ p e, w.files.at? p = some e → files.at? p = some e) ∧
    ∀ p s, files.at? p = some (.file s) → w.files.at? p = some (.file s) := by
  obtain ⟨made, files, hmake, hfiles⟩ := makeOutput_yields r w
  have hbegin : ∃ res, Yields r.begin.run w res files := by
    cases made with
    | ok => exact Quiet.after hmake (prepare_quiet r)
    | error f => exact ⟨_, hmake.fails⟩
  obtain ⟨res, hbegin⟩ := hbegin
  refine ⟨res, files, hbegin, ?_⟩
  rcases hfiles with rfl | ⟨path, hcreate⟩
  · exact ⟨fun _ _ h => h, fun _ _ h => h⟩
  · exact ⟨fun _ _ => FileTree.createAll_keeps hcreate, fun _ _ => FileTree.createAll_makes_no_file hcreate⟩

/-- A run into a directory that is there, or beside its inputs, begins with loading alone. -/
theorem begin_of_prepare (houtput : ∀ path ∈ r.output, w.files.isDirectory w.directory path)
    (hprepare : ((r.prepare : ExceptT Failure (StateM Workspace) Batch).run w).1 = .ok b) :
    Yields r.begin.run w (.ok b) w.files := by
  obtain ⟨res, told, hload⟩ := prepare_quiet r w
  rw [hload] at hprepare
  cases hprepare
  exact ⟨told, (run_bind (makeOutput_of_directory houtput) _).trans hload⟩

end Request
end QuartoPretext
