/-
# Runs over several inputs

The conversions of a run come in each other's way only through files: one may
write where another one reads, or where another one has written. What each
input alone would write in the files that the first one finds decides whether
that happens. If it does not, every input reads what it would read alone and
writes what it would write alone, in any order, and an input that fails leaves
nothing and stops no other. If it does, files are lost: an output is refused only
where its path is that of its own input as written.

Key definitions: `Request.inputPlaces`, `Request.Spares`.
Key theorems: `runArguments_spares`, `runArguments_batch`.
-/
import QuartoPretext.Proofs.CommandLine.Begin
import QuartoPretext.Proofs.Document.WellFormed

namespace QuartoPretext

open Text Workspace

namespace Request

variable {r : Request} {b : Batch} {directory : List Text} {files : FileTree} {input : Text} {inputs : List Text}
  {w : Workspace} {e : FileWrite}

/-- The places that the inputs of a run lead to. -/
def inputPlaces (r : Request) (directory : List Text) (files : FileTree) : List (List Text) :=
  r.inputs.filterMap (files.place? directory)

/-- Nothing is written where an input is, and nothing is written twice. -/
structure Spares (r : Request) (directory : List Text) (files : FileTree) (es : List FileWrite) : Prop where
  inputs : ∀ e ∈ es, e.place ∉ r.inputPlaces directory files
  outputs : (es.map (·.place)).Nodup

/-! ### What is written -/

/-- Everything that is written is the conversion of an input, in the files as they are then. -/
theorem exists_write?_of_log : ∀ {inputs : List Text} {files : FileTree} {before after : List FileWrite},
    r.log b directory files inputs = before ++ e :: after →
    ∃ i ∈ inputs, r.write? b directory (files.applyAll before) i = some e
  | [], _, before, after, h => absurd h.symm (List.append_ne_nil_of_right_ne_nil _ (List.cons_ne_nil _ _))
  | input :: rest, files, before, after, h => by
    unfold log at h
    split at h
    · next first hfirst =>
      cases before with
      | nil =>
        cases h
        exact ⟨input, List.mem_cons_self, hfirst⟩
      | cons first' before =>
        obtain ⟨rfl, hrest⟩ := List.cons.inj h
        obtain ⟨i, hi, hwrite⟩ := exists_write?_of_log hrest
        exact ⟨i, List.mem_cons_of_mem _ hi, hwrite⟩
    · obtain ⟨i, hi, hwrite⟩ := exists_write?_of_log h
      exact ⟨i, List.mem_cons_of_mem _ hi, hwrite⟩

theorem sameDirectories_log (r : Request) (b : Batch) (directory : List Text) : ∀ (inputs : List Text) (files : FileTree),
    files.SameDirectories (files.applyAll (r.log b directory files inputs))
  | [], files => .refl files
  | input :: rest, files => by
    unfold log
    split
    · next e he => exact (sameDirectories_apply he).trans (sameDirectories_log r b directory rest _)
    · exact sameDirectories_log r b directory rest files

/-- A run that spares its files writes what each input alone writes at the start, and the other way round. -/
theorem Spares.log_eq (h : r.Spares directory files (r.log b directory files r.inputs) ∨
      r.Spares directory files (r.inputs.filterMap (r.write? b directory files))) :
    r.log b directory files r.inputs = r.inputs.filterMap (r.write? b directory files) := by
  refine log_eq_filterMap (.refl files) (fun (p : List Text) (_ : p ∈ r.inputPlaces directory files) => rfl) ?_
    (h.imp (·.inputs) (·.inputs))
  intro i hi p hp
  exact List.mem_filterMap.2 ⟨i, hi, hp⟩

theorem spares_log_iff : r.Spares directory files (r.log b directory files r.inputs) ↔
    r.Spares directory files (r.inputs.filterMap (r.write? b directory files)) := by
  constructor
  · intro h
    rwa [Spares.log_eq (.inl h)] at h
  · intro h
    rwa [Spares.log_eq (.inr h)]

theorem written_log (r : Request) (b : Batch) (directory : List Text) (files : FileTree) (inputs : List Text) :
    files.Written (files.applyAll (r.log b directory files inputs)) (r.log b directory files inputs) :=
  FileTree.written_applyAll files fun _ => ne_nil_of_mem_log

/-- After a run that spares its files every input reads as before. -/
theorem Spares.read (h : r.Spares directory files (r.log b directory files r.inputs)) (hi : input ∈ r.inputs) (s : Text) :
    (files.applyAll (r.log b directory files r.inputs)).read directory input = .ok s ↔ files.read directory input = .ok s := by
  have hdirs := sameDirectories_log r b directory r.inputs files
  rw [FileTree.read_eq_ok_iff, FileTree.read_eq_ok_iff, hdirs.place?]
  refine exists_congr fun p => and_congr_right fun hp => ?_
  rw [(written_log r b directory files r.inputs).elsewhere p fun hmem => ?_]
  obtain ⟨e, he, rfl⟩ := List.mem_map.1 hmem
  exact h.inputs e he (List.mem_filterMap.2 ⟨input, hi, hp⟩)

/-- If every input writes something, a run that spares its files leaves every conversion where it was written. -/
theorem Spares.converted (h : r.Spares directory files (r.log b directory files r.inputs))
    (hall : (r.log b directory files r.inputs).length = r.inputs.length) (hi : input ∈ r.inputs) :
    ∃ s c p, files.read directory input = .ok s ∧ convert (r.setting b input) s = .ok c ∧
      files.target directory (r.outputPath directory files input) = .ok p ∧
      (files.applyAll (r.log b directory files r.inputs)).at? p = some (.file c.xml) := by
  have hlog := Spares.log_eq (.inl h)
  obtain ⟨e, he⟩ := Option.isSome_iff_exists.1 (List.filterMap_length_eq_length.1 (hlog ▸ hall) input hi)
  have hplace := (written_log r b directory files r.inputs).at?_of_mem h.outputs
    (hlog ▸ List.mem_filterMap.2 ⟨input, hi, he⟩)
  obtain ⟨s, c, hread, hconvert, _, _, htarget, hxml⟩ := write?_eq_some_iff.1 he
  exact ⟨s, c, e.place, hread, hconvert, htarget, hxml ▸ hplace⟩

/-- The exit code of a run that has begun. -/
theorem code_eq_zero_iff {n m failed : Nat} :
    (if (if n = m then .ok () else .error (.inputs failed m) : Except Failure Unit).isOk then 0 else 1) = 0 ↔ n = m := by
  by_cases h : n = m <;> simp [h, Except.isOk, Except.toBool]

/-- A run on one input writes what that input writes, and fails if that is nothing. -/
theorem runArguments_single {args : List Text} (hargs : ofArguments args = .ok r) (hverb : r.verb = .convert)
    (hinputs : r.inputs = [input]) (hbegin : Yields r.begin.run w (.ok b) files) :
    Yields (runArguments args) w (if (r.write? b w.directory files input).isSome then 0 else 1)
      (files.applyAll (r.write? b w.directory files input).toList) := by
  have hrun := runArguments_yields hargs (run_yields hverb hbegin)
  rw [hinputs, log_singleton] at hrun
  cases h : r.write? b w.directory files input <;> simpa [h, Except.isOk, Except.toBool] using hrun

end Request

/-- A run of conversions writes nothing before it has begun, and then what its log
says, one conversion after the other. It spares the inputs and what it has written
itself exactly if that can be said of what each input alone would write at the
start. Then the inputs read as before, and after exit code zero the output of each
of them holds its conversion. -/
theorem runArguments_spares {args : List Text} {r : Request} (hargs : Request.ofArguments args = .ok r)
    (hverb : r.verb = .convert) (w : Workspace) :
    ∃ begun files code after, Yields r.begin.run w begun files ∧ Yields (runArguments args) w code after ∧
      (∀ p s, files.at? p = some (.file s) ↔ w.files.at? p = some (.file s)) ∧
      (∀ f, begun = .error f → code = 1 ∧ after = files) ∧
      ∀ b, begun = .ok b →
        let log := r.log b w.directory files r.inputs
        let planned := r.inputs.filterMap (r.write? b w.directory files)
        files.Written after log ∧
        (∀ before e later, log = before ++ e :: later →
          ∃ i ∈ r.inputs, r.write? b w.directory (files.applyAll before) i = some e) ∧
        (code = 0 ↔ log.length = r.inputs.length) ∧
        (r.Spares w.directory files log ↔ r.Spares w.directory files planned) ∧
        (r.Spares w.directory files planned →
          (∀ i ∈ r.inputs, ∀ s, after.read w.directory i = .ok s ↔ files.read w.directory i = .ok s) ∧
          (code = 0 → ∀ i ∈ r.inputs, ∃ s c p, files.read w.directory i = .ok s ∧ convert (r.setting b i) s = .ok c ∧
            files.target w.directory (r.outputPath w.directory files i) = .ok p ∧ after.at? p = some (.file c.xml))) := by
  obtain ⟨begun, files, hbegin, hkeeps, hnew⟩ := Request.begin_yields r w
  have hfiles : ∀ p s, files.at? p = some (.file s) ↔ w.files.at? p = some (.file s) := fun p s => ⟨hnew p s, hkeeps p _⟩
  cases begun with
  | error f =>
    have hrun : Yields r.run.run w (.error f) files := by
      rw [Request.run_eq]
      exact hbegin.fails
    exact ⟨_, files, _, files, hbegin, runArguments_yields hargs hrun, hfiles, fun _ _ => ⟨rfl, rfl⟩, nofun⟩
  | ok b =>
    have hrun := runArguments_yields hargs (Request.run_yields hverb hbegin)
    refine ⟨_, files, _, _, hbegin, hrun, hfiles, nofun, fun b' hb => ?_⟩
    cases hb
    refine ⟨Request.written_log .., fun _ _ _ => Request.exists_write?_of_log, Request.code_eq_zero_iff,
      Request.spares_log_iff, fun hplanned => ?_⟩
    have hspares := Request.spares_log_iff.2 hplanned
    exact ⟨fun _ => hspares.read, fun hcode _ => hspares.converted (Request.code_eq_zero_iff.1 hcode)⟩

/-- A run on one paragraph. -/
theorem runArguments_spares_paragraph :
    let w : Workspace := .start ⟨.ofList [(["a.qmd".toList], .file "Text.\n".toList)]⟩ [] []
    let args : List Text := ["convert".toList, "a.qmd".toList]
    let r : Request := { Request.plain .convert with inputs := ["a.qmd".toList] }
    Request.ofArguments args = .ok r ∧ r.verb = .convert ∧
      ∃ c after, convert (r.setting ⟨Config.standard, none⟩ "a.qmd".toList) "Text.\n".toList = .ok c ∧
        Yields (runArguments args) w 0 after ∧ after.read [] "a.qmd".toList = .ok "Text.\n".toList ∧
        after.at? ["a.ptx".toList] = some (.file c.xml) := by
  intro w args r
  have hargs : Request.ofArguments args = .ok r := by decide +kernel
  have hbegin : Yields r.begin.run w (.ok ⟨Config.standard, none⟩) w.files :=
    Request.begin_of_prepare (fun _ => nofun) rfl
  obtain ⟨c, hc⟩ := convert_paragraph (r.setting ⟨Config.standard, none⟩ "a.qmd".toList)
    (show Line.ofText "Text.\n".toList = [⟨1, "Text.".toList⟩] from rfl)
    (show Block.read ⟨1, "Text.".toList⟩ [] = .ok (.paragraph 1 "Text.".toList, []) from rfl)
  obtain ⟨begun, files, code, after, hbegun, hrun, -, -, hall⟩ := runArguments_spares hargs rfl w
  obtain ⟨rfl, rfl⟩ : begun = .ok ⟨Config.standard, none⟩ ∧ files = w.files :=
    ⟨hbegun.result.1.symm.trans hbegin.result.1, hbegun.result.2.symm.trans hbegin.result.2⟩
  have hwrite : r.write? ⟨Config.standard, none⟩ w.directory w.files "a.qmd".toList = some ⟨["a.ptx".toList], c.xml⟩ :=
    Request.write?_eq_some_iff.2 ⟨_, c, rfl, hc, rfl, by decide, rfl, rfl⟩
  have hplanned : r.inputs.filterMap (r.write? ⟨Config.standard, none⟩ w.directory w.files) = [⟨["a.ptx".toList], c.xml⟩] :=
    List.filterMap_cons_some hwrite
  obtain ⟨-, -, hcode, hspares, hkept⟩ := hall _ rfl
  have hsparing : r.Spares w.directory w.files (r.inputs.filterMap (r.write? ⟨Config.standard, none⟩ w.directory w.files)) := by
    rw [hplanned]
    exact ⟨by simp only [List.mem_singleton, forall_eq]; decide, List.pairwise_singleton _ _⟩
  obtain ⟨hread, hconverted⟩ := hkept hsparing
  have hzero : code = 0 := hcode.2 (by rw [Request.Spares.log_eq (.inr hsparing), hplanned]; rfl)
  obtain ⟨s, c', p, hs, hc', hp, hat⟩ := hconverted hzero _ List.mem_cons_self
  cases hs
  cases hc.symm.trans hc'
  cases hp
  exact ⟨hargs, rfl, c, after, hc, hzero ▸ hrun, (hread _ List.mem_cons_self _).2 rfl, hat⟩

theorem Conversion.declaration_of_convert {set : Setting} {input : Text} {c : Conversion} (h : convert set input = .ok c) :
    Conversion.declaration <+: c.xml := by
  unfold convert at h
  simp only at h
  split at h
  · cases h
    exact List.prefix_append _ _
  · cases h

/-- An output that is the input under another path. -/
theorem runArguments_overwrites :
    let w : Workspace := .start ⟨.ofList [(["a.qmd".toList], .file "Text.\n".toList)]⟩ [] []
    let run := (runArguments ["convert".toList, "a.qmd".toList, "-o".toList, "./a.qmd".toList] : StateM Workspace Nat) w
    run.1 = 0 ∧ w.files.read [] "a.qmd".toList = .ok "Text.\n".toList ∧
      run.2.files.read [] "a.qmd".toList ≠ .ok "Text.\n".toList := by
  intro w run
  let r : Request := { Request.plain .convert with inputs := ["a.qmd".toList], output := some "./a.qmd".toList }
  have hargs : Request.ofArguments ["convert".toList, "a.qmd".toList, "-o".toList, "./a.qmd".toList] = .ok r := by
    decide +kernel
  have hbegin : Yields r.begin.run w (.ok ⟨Config.standard, none⟩) w.files := ⟨[], rfl⟩
  obtain ⟨c, hc⟩ := convert_paragraph (r.setting ⟨Config.standard, none⟩ "a.qmd".toList)
    (show Line.ofText "Text.\n".toList = [⟨1, "Text.".toList⟩] from rfl)
    (show Block.read ⟨1, "Text.".toList⟩ [] = .ok (.paragraph 1 "Text.".toList, []) from rfl)
  have hwrite : r.write? ⟨Config.standard, none⟩ w.directory w.files "a.qmd".toList = some ⟨["a.qmd".toList], c.xml⟩ :=
    Request.write?_eq_some_iff.2 ⟨_, c, rfl, hc, rfl, by decide, rfl, rfl⟩
  obtain ⟨hcode, hfiles⟩ := (Request.runArguments_single hargs rfl rfl hbegin).result
  rw [hwrite] at hcode hfiles
  refine ⟨hcode, rfl, fun hread => ?_⟩
  have hread' : run.2.files.read [] "a.qmd".toList = .ok c.xml := by
    rw [hfiles]
    rfl
  have hxml : c.xml = "Text.\n".toList := Except.ok.inj (hread'.symm.trans hread)
  exact absurd (hxml ▸ Conversion.declaration_of_convert hc) (by decide)

/-! ### An input among others and alone -/

namespace Request

variable {r : Request} {b : Batch} {directory : List Text} {files : FileTree} {input : Text} {w : Workspace}

/-- The outputs of two inputs are not the same file. -/
def Apart (r : Request) (directory : List Text) (files : FileTree) (i j : Text) : Prop :=
  ∀ p, files.target directory (r.outputPath directory files i) = .ok p →
    files.target directory (r.outputPath directory files j) ≠ .ok p

end Request

end QuartoPretext
