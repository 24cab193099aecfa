/-
# What a run writes

A run makes the directory of its output, loads its settings, and then converts
one input after the other in the files that the inputs before have left. Each
input writes one file or none: the place and the text follow from the files
alone. So a run comes down to the list of what it writes, and the exit code is
zero exactly if every input writes something.

Key definitions: `Workspace.Yields`, `Request.outputPath`, `Request.write?`, `Request.log`,
`Request.begin`.
Key theorems: `Request.convertInput_yields`, `Request.convertAll_yields`, `runArguments_yields`,
`Request.log_eq_filterMap`.
-/
import QuartoPretext.CommandLine.Run
import QuartoPretext.Proofs.Files.Places

namespace QuartoPretext

/-- Run in a workspace, an action gives a value and leaves some files. The working
directory and the environment stay as they are. -/
def Workspace.Yields {α : Type} (x : StateM Workspace α) (w : Workspace) (a : α) (files : FileTree) : Prop :=
  ∃ told, x w = (a, { w with files, told })

variable {α β : Type}

theorem Workspace.run_lift {x : StateM Workspace α} {w w' : Workspace} {a : α} (h : x w = (a, w')) :
    (ExceptT.lift x : ExceptT Failure (StateM Workspace) α).run w = (.ok a, w') := by
  show (Except.ok (x w).1, (x w).2) = _
  rw [h]

theorem Workspace.run_bind {x : ExceptT Failure (StateM Workspace) α} {w w' : Workspace} {res : Except Failure α}
    (h : x.run w = (res, w')) (f : α → ExceptT Failure (StateM Workspace) β) :
    (x >>= f).run w = ExceptT.bindCont f res w' := by
  show ExceptT.bindCont f (x.run w).1 (x.run w).2 = _
  rw [h]

namespace Workspace.Yields

variable {w : Workspace} {files files' : FileTree} {e : Failure}

theorem pure (a : α) (w : Workspace) : Yields (pure a) w a w.files := ⟨w.told, rfl⟩

theorem bind {x : StateM Workspace α} {f : α → StateM Workspace β} {a : α} {c : β} (hx : Yields x w a files)
    (hf : ∀ told, Yields (f a) { w with files, told } c files') : Yields (x >>= f) w c files' := by
  obtain ⟨told, hx⟩ := hx
  obtain ⟨told', hf⟩ := hf told
  refine ⟨told', ?_⟩
  show (f (x w).1) (x w).2 = _
  rw [hx]
  exact hf

theorem lift {x : StateM Workspace α} {a : α} (hx : Yields x w a files) :
    Yields (ExceptT.lift x : ExceptT Failure (StateM Workspace) α).run w (.ok a) files := by
  obtain ⟨told, hx⟩ := hx
  exact ⟨told, run_lift hx⟩

theorem throw (f : Failure) (w : Workspace) :
    Yields (throw f : ExceptT Failure (StateM Workspace) α).run w (.error f) w.files := ⟨w.told, rfl⟩

theorem ok (a : α) (w : Workspace) :
    Yields (Pure.pure a : ExceptT Failure (StateM Workspace) α).run w (.ok a) w.files := ⟨w.told, rfl⟩

/-- A step that succeeds, and what comes after it. -/
theorem andThen {x : ExceptT Failure (StateM Workspace) α} {f : α → ExceptT Failure (StateM Workspace) β} {a : α}
    {c : Except Failure β} (hx : Yields x.run w (.ok a) files) (hf : ∀ told, Yields (f a).run { w with files, told } c files') :
    Yields (x >>= f).run w c files' := by
  obtain ⟨told, hx⟩ := hx
  obtain ⟨told', hf⟩ := hf told
  exact ⟨told', (run_bind hx f).trans hf⟩

/-- A step that fails ends it all. -/
theorem fails {x : ExceptT Failure (StateM Workspace) α} {f : α → ExceptT Failure (StateM Workspace) β}
    (hx : Yields x.run w (.error e) files) : Yields (x >>= f).run w (.error e) files := by
  obtain ⟨told, hx⟩ := hx
  exact ⟨told, run_bind hx f⟩

theorem tell (message : Message) (w : Workspace) : Yields (Request.tell message) w () w.files :=
  ⟨w.told ++ [message.text], rfl⟩

theorem note (r : Request) (message : Message) (w : Workspace) : Yields (r.note message) w () w.files := by
  unfold Request.note
  split
  · exact tell message w
  · exact pure () w

theorem tellAll (f : α → Message) : ∀ (as : List α) (w : Workspace), Yields (as.forM fun a => Request.tell (f a)) w () w.files
  | [], w => pure () w
  | a :: as, w => bind (tell (f a) w) fun told => tellAll f as { w with told }

/-- What an action gives and leaves is settled. -/
theorem result {x : StateM Workspace α} {a : α} (h : Yields x w a files) : (x w).1 = a ∧ (x w).2.files = files := by
  obtain ⟨told, h⟩ := h
  rw [h]
  exact ⟨rfl, rfl⟩

end Workspace.Yields

namespace Request

open Text Workspace

variable {r : Request} {b : Batch} {directory : List Text} {files files' : FileTree} {input : Text} {inputs : List Text}
  {w : Workspace}

/-! ### One input -/

/-- The path that the conversion of an input is written to, in some files. -/
def outputPath (r : Request) (directory : List Text) (files : FileTree) (input : Text) : Text :=
  match r.output with
  | none => beside input
  | some path => if r.hasMany || files.isDirectory directory path then inside path input else path

/-- What the conversion of an input writes, in some files: nothing if it fails. -/
def write? (r : Request) (b : Batch) (directory : List Text) (files : FileTree) (input : Text) : Option FileWrite := do
  let text ← (files.read directory input).toOption
  let c ← (convert (r.setting b input) text).toOption
  let path := r.outputPath directory files input
  if (r.denyWarnings && !c.warnings.isEmpty) || Path.agrees path input then none
  else (files.target directory path).toOption.map fun place => ⟨place, c.xml⟩

theorem target_yields (r : Request) (input : Text) (w : Workspace) :
    Yields (r.target input) w (r.outputPath w.directory w.files input) w.files := by
  unfold target outputPath
  cases r.output with
  | none => exact .pure _ w
  | some path =>
    cases r.hasMany with
    | true => exact .pure _ w
    | false =>
      have hdirectory : Yields (Host.isDirectory path) w (w.files.isDirectory w.directory path) w.files := ⟨w.told, rfl⟩
      refine hdirectory.bind fun told => ?_
      simp only [Bool.false_or]
      cases w.files.isDirectory w.directory path <;> exact .pure _ { w with told }

theorem readFile_yields (path : Text) (w : Workspace) :
    Yields (readFile path).run w ((w.files.read w.directory path).mapError (Failure.file path)) w.files := by
  have hread : Yields (Host.read path) w (w.files.read w.directory path) w.files := ⟨w.told, rfl⟩
  refine hread.lift.andThen fun told => ?_
  cases w.files.read w.directory path with
  | ok text => exact .ok text { w with told }
  | error f => exact .throw (.file path f) { w with told }

theorem hostWrite_yields (path text : Text) (w : Workspace) :
    match w.files.target w.directory path with
    | .ok place => Yields (Host.write path text) w (.ok ()) (w.files.apply ⟨place, text⟩)
    | .error f => Yields (Host.write path text) w (.error f) w.files := by
  have hchange : (Host.write path text : StateM Workspace _) w =
      Workspace.change (fun w => w.files.write w.directory path text) w := rfl
  split
  · next place htarget =>
    refine ⟨w.told, ?_⟩
    rw [hchange, Workspace.change, FileTree.write_eq, htarget]
    rfl
  · next f htarget =>
    refine ⟨w.told, ?_⟩
    rw [hchange, Workspace.change, FileTree.write_eq, htarget]
    rfl

/-- A conversion is written unless the output has the path of the input, or cannot be written. -/
theorem write_yields (r : Request) (input xml : Text) (w : Workspace) :
    let path := r.outputPath w.directory w.files input
    if Path.agrees path input then Yields (r.write input xml).run w (.error (.overwrite input)) w.files
    else
      match w.files.target w.directory path with
      | .ok place => Yields (r.write input xml).run w (.ok ()) (w.files.apply ⟨place, xml⟩)
      | .error f => Yields (r.write input xml).run w (.error (.file path f)) w.files := by
  intro path
  have hpath := (target_yields r input w).lift
  split
  · next hagrees =>
    refine hpath.andThen fun told => ?_
    rw [if_pos hagrees]
    exact .fails (.throw _ { w with told })
  · next hagrees =>
    have hwrite := fun told => hostWrite_yields path xml { w with told }
    dsimp only at hwrite
    split
    · next place htarget =>
      simp only [htarget] at hwrite
      refine hpath.andThen fun told => ?_
      rw [if_neg hagrees]
      exact (hwrite told).lift.andThen fun told' => (Yields.tell _ { w with files := _, told := told' }).lift
    · next f htarget =>
      simp only [htarget] at hwrite
      refine hpath.andThen fun told => ?_
      rw [if_neg hagrees]
      exact (hwrite told).lift.andThen fun told' => .throw _ { w with told := told' }

theorem write?_eq_some_iff {e : FileWrite} : r.write? b directory files input = some e ↔
    ∃ text c, files.read directory input = .ok text ∧ convert (r.setting b input) text = .ok c ∧
      (r.denyWarnings && !c.warnings.isEmpty) = false ∧ Path.agrees (r.outputPath directory files input) input = false ∧
      files.target directory (r.outputPath directory files input) = .ok e.place ∧ e.text = c.xml := by
  have hok {α β : Type} (x : Except α β) (y : β) : x.toOption = some y ↔ x = .ok y := by
    cases x <;> simp [Except.toOption]
  unfold write?
  simp only [Option.bind_eq_bind, Option.bind_eq_some_iff, hok, Option.ite_none_left_eq_some, Option.map_eq_some_iff,
    Bool.not_eq_true, Bool.or_eq_false_iff]
  constructor
  · rintro ⟨text, htext, c, hc, ⟨hdeny, hagrees⟩, place, htarget, rfl⟩
    exact ⟨text, c, htext, hc, hdeny, hagrees, htarget, rfl⟩
  · rintro ⟨text, c, htext, hc, hdeny, hagrees, htarget, hxml⟩
    exact ⟨text, htext, c, hc, ⟨hdeny, hagrees⟩, e.place, htarget, by rw [← hxml]⟩

theorem ne_nil_of_write? {e : FileWrite} (h : r.write? b directory files input = some e) : e.place ≠ [] := by
  obtain ⟨_, _, _, _, _, _, htarget, _⟩ := write?_eq_some_iff.1 h
  exact FileTree.ne_nil_of_target htarget

/-- After an input has been read and converted without a denied warning, all depends on the output. -/
theorem convertInput_of_write {text : Text} {c : Conversion} (hverb : r.verb = .convert)
    (htext : w.files.read w.directory input = .ok text) (hconvert : convert (r.setting b input) text = .ok c)
    (hdeny : (r.denyWarnings && !c.warnings.isEmpty) = false) {res : Except Failure Unit}
    (h : ∀ told, Yields (r.write input c.xml).run { w with told } res files) :
    Yields (r.convertInput b input).run w res files := by
  have hread := readFile_yields input w
  rw [htext] at hread
  refine hread.andThen fun told => ((Yields.note r _ { w with told }).lift).andThen fun told' => ?_
  simp only [hconvert]
  refine ((Yields.tellAll (Message.warning input) c.warnings { w with told := told' }).lift).andThen fun told'' => ?_
  simp only [hdeny, Bool.false_eq_true, if_false, finish, hverb]
  exact h told''

/-- An input that has something to write writes it and succeeds. -/
theorem convertInput_yields {e : FileWrite} (hverb : r.verb = .convert)
    (h : r.write? b w.directory w.files input = some e) :
    Yields (r.convertInput b input).run w (.ok ()) (w.files.apply e) := by
  obtain ⟨text, c, htext, hconvert, hdeny, hagrees, htarget, hxml⟩ := write?_eq_some_iff.1 h
  refine convertInput_of_write hverb htext hconvert hdeny fun told => ?_
  have hwrite := write_yields r input c.xml { w with told }
  simp only [hagrees, Bool.false_eq_true, if_false, htarget] at hwrite
  rwa [← hxml] at hwrite ⊢

/-- An input that has nothing to write fails, and leaves the files as they are. -/
theorem convertInput_fails (hverb : r.verb = .convert) (h : r.write? b w.directory w.files input = none) :
    ∃ f, Yields (r.convertInput b input).run w (.error f) w.files := by
  have hread := readFile_yields input w
  cases htext : w.files.read w.directory input with
  | error f =>
    rw [htext] at hread
    exact ⟨_, hread.fails⟩
  | ok text =>
    rw [htext] at hread
    have hnote (told : List Text) := (Yields.note r (.converting input r.kind) { w with told }).lift
    cases hconvert : convert (r.setting b input) text with
    | error f =>
      refine ⟨.document input f, hread.andThen fun told => (hnote told).andThen fun told' => ?_⟩
      simp only [hconvert]
      exact .throw _ { w with told := told' }
    | ok c =>
      cases hdeny : r.denyWarnings && !c.warnings.isEmpty with
      | true =>
        refine ⟨.deniedWarnings input c.warnings.length, hread.andThen fun told => (hnote told).andThen fun told' => ?_⟩
        simp only [hconvert]
        refine ((Yields.tellAll (Message.warning input) c.warnings { w with told := told' }).lift).andThen fun told'' => ?_
        simp only [hdeny, if_true]
        exact Yields.fails (.throw _ { w with told := told'' })
      | false =>
        have hwrite (told : List Text) := write_yields r input c.xml { w with told }
        dsimp only at hwrite
        cases hagrees : Path.agrees (r.outputPath w.directory w.files input) input with
        | true =>
          simp only [hagrees, if_true] at hwrite
          exact ⟨_, convertInput_of_write hverb htext hconvert hdeny hwrite⟩
        | false =>
          cases htarget : w.files.target w.directory (r.outputPath w.directory w.files input) with
          | error f =>
            simp only [hagrees, Bool.false_eq_true, if_false, htarget] at hwrite
            exact ⟨_, convertInput_of_write hverb htext hconvert hdeny hwrite⟩
          | ok place =>
            have hsome := (write?_eq_some_iff (e := ⟨place, c.xml⟩)).2 ⟨text, c, htext, hconvert, hdeny, hagrees, htarget, rfl⟩
            rw [h] at hsome
            cases hsome

/-! ### All inputs -/

/-- What the conversions of some inputs write, one after the other, each in the files
that the ones before have left. -/
def log (r : Request) (b : Batch) (directory : List Text) : FileTree → List Text → List FileWrite
  | _, [] => []
  | files, input :: rest =>
    match r.write? b directory files input with
    | some e => e :: log r b directory (files.apply e) rest
    | none => log r b directory files rest

theorem length_log_le (r : Request) (b : Batch) (directory : List Text) : ∀ (inputs : List Text) (files : FileTree),
    (r.log b directory files inputs).length ≤ inputs.length
  | [], _ => Nat.le_refl 0
  | input :: rest, files => by
    unfold log
    split
    · exact Nat.succ_le_succ (length_log_le r b directory rest _)
    · exact Nat.le_succ_of_le (length_log_le r b directory rest files)

/-- The inputs that fail are those that write nothing. -/
theorem convertAll_yields (hverb : r.verb = .convert) (b : Batch) : ∀ (inputs : List Text) (w : Workspace),
    Yields (r.convertAll b inputs) w (inputs.length - (r.log b w.directory w.files inputs).length)
      (w.files.applyAll (r.log b w.directory w.files inputs))
  | [], w => .pure 0 w
  | input :: rest, w => by
    unfold log convertAll
    cases h : r.write? b w.directory w.files input with
    | some e =>
      refine (convertInput_yields hverb h).bind fun told => ?_
      rw [List.length_cons, List.length_cons, Nat.add_sub_add_right]
      exact convertAll_yields hverb b rest { w with files := w.files.apply e, told }
    | none =>
      obtain ⟨f, hf⟩ := convertInput_fails hverb h
      refine hf.bind fun told => (Yields.tell (.failed f) { w with told }).bind fun told' => ?_
      refine (convertAll_yields hverb b rest { w with told := told' }).bind fun told'' => ?_
      rw [List.length_cons, Nat.sub_add_comm (length_log_le ..)]
      exact .pure _ { w with files := _, told := told'' }

theorem log_singleton (r : Request) (b : Batch) (directory : List Text) (files : FileTree) (input : Text) :
    r.log b directory files [input] = (r.write? b directory files input).toList := by
  unfold log
  cases r.write? b directory files input <;> rfl

theorem ne_nil_of_mem_log {e : FileWrite} : ∀ {inputs : List Text} {files : FileTree}, e ∈ r.log b directory files inputs →
    e.place ≠ []
  | [], _, h => absurd h List.not_mem_nil
  | input :: rest, files, h => by
    unfold log at h
    split at h
    · next f hf =>
      rcases List.mem_cons.1 h with rfl | h
      · exact ne_nil_of_write? hf
      · exact ne_nil_of_mem_log h
    · exact ne_nil_of_mem_log h

/-! ### Inputs that do not come in each other's way -/

/-- What an input writes depends on the directories and on what is at its own place. -/
theorem write?_eq (h : files.SameDirectories files') {input : Text}
    (hp : ∀ p, files.place? directory input = some p → files'.at? p = files.at? p) :
    r.write? b directory files' input = r.write? b directory files input := by
  have hpath : r.outputPath directory files' input = r.outputPath directory files input := by
    unfold outputPath
    simp only [h.isDirectory]
  unfold write?
  simp only [h.read hp, hpath, h.target]

theorem sameDirectories_apply {e : FileWrite} (h : r.write? b directory files input = some e) :
    files.SameDirectories (files.apply e) := by
  obtain ⟨_, _, _, _, _, _, htarget, _⟩ := write?_eq_some_iff.1 h
  exact .put_file (ne_nil_of_write? h) (FileTree.target_eq_ok_iff.1 htarget).2

/-- Unless something is written where one of the inputs is, each of them writes what
it writes in the files that the first one finds. It is enough to know this of what
is written in either way. -/
theorem log_eq_filterMap {places : List (List Text)} : ∀ {inputs : List Text} {now : FileTree},
    files.SameDirectories now → (∀ p ∈ places, now.at? p = files.at? p) →
    (∀ i ∈ inputs, ∀ p, files.place? directory i = some p → p ∈ places) →
    ((∀ e ∈ r.log b directory now inputs, e.place ∉ places) ∨
      ∀ e ∈ inputs.filterMap (r.write? b directory files), e.place ∉ places) →
    r.log b directory now inputs = inputs.filterMap (r.write? b directory files)
  | [], _, _, _, _, _ => rfl
  | input :: rest, now, hdirs, hsame, hplaces, hapart => by
    have hinput : r.write? b directory now input = r.write? b directory files input :=
      write?_eq hdirs fun p hp => hsame p (hplaces input List.mem_cons_self p hp)
    have hrest : ∀ i ∈ rest, ∀ p, files.place? directory i = some p → p ∈ places := fun i hi =>
      hplaces i (List.mem_cons_of_mem _ hi)
    unfold log at hapart ⊢
    rw [hinput] at hapart ⊢
    cases h : r.write? b directory files input with
    | none =>
      rw [List.filterMap_cons_none h] at hapart ⊢
      rw [h] at hapart
      exact log_eq_filterMap hdirs hsame hrest hapart
    | some e =>
      rw [List.filterMap_cons_some h] at hapart ⊢
      rw [h] at hapart
      simp only [List.forall_mem_cons] at hapart
      have he : e.place ∉ places := hapart.elim (·.1) (·.1)
      have hnow : now.SameDirectories (now.apply e) := sameDirectories_apply (hinput.trans h)
      refine congrArg (e :: ·) (log_eq_filterMap (hdirs.trans hnow) (fun p hp => ?_) hrest (hapart.imp (·.2) (·.2)))
      rw [← hsame p hp]
      exact FileTree.at?_put_of_ne (ne_nil_of_write? h) _ fun hpe => he (hpe ▸ hp)

/-! ### The whole run -/

/-- What a run does before it converts its inputs. -/
def begin {m : Type → Type} [Monad m] [Host m] (r : Request) : ExceptT Failure m Batch := do
  r.makeOutput
  r.prepare

theorem run_eq (r : Request) : (r.run : ExceptT Failure (StateM Workspace) Unit) = (do
    let batch ← r.begin
    let failed ← ExceptT.lift (r.convertAll batch r.inputs)
    if 0 < failed then throw (.inputs failed r.inputs.length)) := by
  simp only [run, begin, bind_assoc]

/-- A run that has begun writes what its inputs write, and fails unless all of them write something. -/
theorem run_yields (hverb : r.verb = .convert) (hbegin : Yields r.begin.run w (.ok b) files) :
    Yields r.run.run w
      (if (r.log b w.directory files r.inputs).length = r.inputs.length then .ok ()
        else .error (.inputs (r.inputs.length - (r.log b w.directory files r.inputs).length) r.inputs.length))
      (files.applyAll (r.log b w.directory files r.inputs)) := by
  have hall (told : List Text) := (convertAll_yields hverb b r.inputs { w with files, told }).lift
  have hle := length_log_le r b w.directory r.inputs files
  rw [run_eq]
  refine hbegin.andThen fun told => (hall told).andThen fun told' => ?_
  dsimp only
  by_cases heq : (r.log b w.directory files r.inputs).length = r.inputs.length
  · rw [if_pos heq, if_neg (by omega)]
    exact .ok () { w with files := _, told := told' }
  · rw [if_neg heq, if_pos (by omega)]
    exact .throw _ { w with files := _, told := told' }

end Request

open Workspace in
/-- The exit code tells whether a run has succeeded. -/
theorem runArguments_yields {r : Request} {args : List Text} {w : Workspace} {files : FileTree} {res : Except Failure Unit}
    (hargs : Request.ofArguments args = .ok r) (hrun : Yields r.run.run w res files) :
    Yields (runArguments args) w (if res.isOk then 0 else 1) files := by
  simp only [runArguments, hargs]
  refine hrun.bind fun told => ?_
  cases res with
  | ok => exact .pure 0 { w with files, told }
  | error f => exact (Yields.tell (.error f) { w with files, told }).bind fun told' => .pure 1 { w with files, told := told' }

end QuartoPretext
