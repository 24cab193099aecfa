/-
# Warnings about texts

What a conversion warns of in a text is found when the text is transformed, and
goes by the line that the session is at. So the warnings about texts are those
of the leaves that the run comes to, each with the line that the leaf finds,
and those of the title of the root.

Key theorems: `Session.mem_warnings_write`, `Runs.mem_warnings_iff`, `Conversion.mem_warnings_ofSession`.
-/
import QuartoPretext.Proofs.Document.Order

namespace QuartoPretext

variable {set : Setting} {ctx : Inline.Context} {t t₀ : Task} {s s' s₀ s₀' : Session} {w : Warning}

namespace Session

theorem mem_warnings_inline {text : Text} : w ∈ (s.inline ctx text).2.warnings ↔
    w ∈ s.warnings ∨ w.line = s.line ∧ w.cause ∈ (Inline.transform ctx text).2 := by
  simp only [inline, List.mem_append, List.mem_map]
  refine or_congr_right ⟨?_, ?_⟩
  · rintro ⟨c, hc, rfl⟩
    exact ⟨rfl, hc⟩
  · obtain ⟨line, cause⟩ := w
    rintro ⟨rfl, hc⟩
    exact ⟨cause, hc, rfl⟩

theorem warnings_openSection {n level : Nat} {id : Option Text} {title : Text} {e : Markup.Element}
    (h : s.openSection n level id title e = .ok s') : s'.warnings = s.warnings := by
  obtain ⟨-, rfl⟩ := openSection_eq_ok_iff.1 h
  rfl

theorem mem_warnings_documentHeading {kind : DocumentKind} {n level : Nat} {title : Text} {id : Option Text}
    (hw : w.cause.isInline) (h : s.documentHeading ctx kind n level title id = .ok s') :
    w ∈ s'.warnings ↔ w ∈ s.warnings ∨ w.line = s.line ∧ w.cause ∈ (Inline.transform ctx title).2 := by
  rw [← mem_warnings_inline]
  cases headed_of_documentHeading h with
  | root _ _ | alert _ _ _ => rfl
  | second _ _ ho =>
    -- a second title is no matter of texts
    have hadded : s'.warnings = (s.inline ctx title).2.warnings ++ [⟨some n, .secondTitle title⟩] :=
      warnings_openSection ho
    rw [hadded, List.mem_append, List.mem_singleton, or_iff_left]
    rintro rfl
    cases hw
  | inner _ _ ho => rw [warnings_openSection ho]

/-- Writing a piece adds the warnings about its texts. -/
theorem mem_warnings_write {kind : DocumentKind} {p : Piece} (hw : w.cause.isInline)
    (hp : ∀ n cause, p = .warn n cause → cause.isInline = false) (h : s.write ctx kind p = .ok s') :
    w ∈ s'.warnings ↔
      w ∈ s.warnings ∨ ∃ text ∈ p.texts, w.line = s.line ∧ w.cause ∈ (Inline.transform ctx text).2 := by
  have none {p : Piece} (hp : p.texts = []) :
      (∃ text ∈ p.texts, w.line = s.line ∧ w.cause ∈ (Inline.transform ctx text).2) ↔ False := by
    simp [hp]
  have one {p : Piece} {text : Text} (hp : p.texts = [text]) :
      (∃ text ∈ p.texts, w.line = s.line ∧ w.cause ∈ (Inline.transform ctx text).2) ↔
        w.line = s.line ∧ w.cause ∈ (Inline.transform ctx text).2 := by
    simp [hp]
  cases p with
  | heading n level title id =>
    rw [one rfl]
    exact mem_warnings_documentHeading hw h
  | frontMatter n yaml =>
    rw [none rfl, or_false]
    simp only [write] at h
    split at h <;> cases h
    rfl
  | leaf tag content =>
    simp only [write, Except.ok.injEq] at h
    rw [← h]
    cases content with
    | markup xml =>
      rw [none rfl, or_false]
      rfl
    | inline text | alert text =>
      rw [one rfl]
      exact mem_warnings_inline
  | paragraph text =>
    rw [one rfl, ← mem_warnings_inline]
    simp only [write, Except.ok.injEq, paragraph] at h
    rw [← h]
    split <;> rfl
  | warn n cause =>
    rw [none rfl, or_false]
    cases h
    rw [warn, List.mem_append, List.mem_singleton, or_iff_left]
    rintro rfl
    rw [hp n cause rfl] at hw
    cases hw
  | _ =>
    rw [none rfl, or_false]
    simp only [write, Except.ok.injEq] at h
    subst h
    exact Iff.rfl

end Session

/-- What a plan warns of by itself is found in no text. -/
theorem Reached.not_isInline {context₀ : Context} {ls₀ : List Line} {n : Nat} {cause : Cause}
    (h : Reached set ctx (.lines context₀ ls₀) s₀ (.piece (.warn n cause)) s) : cause.isInline = false := by
  obtain ⟨context, taken, b, s₁, hb, hcarries⟩ := h.carried rfl
  have hmem := hcarries.mem_leaves
  by_cases hmatter : ∃ n yaml, b = .frontMatter n yaml
  · obtain ⟨n', yaml, rfl⟩ := hmatter
    cases List.mem_singleton.1 hmem
  · have hkeeps : Piece.Keeps b.numbers (Plan.ofBlock set context s₁.exerciseCount b) :=
      Plan.keeps_ofBlock hb.placed fun n yaml h => hmatter ⟨n, yaml, h⟩
    rcases hkeeps.plain _ hmem with h | h
    · simpa [Piece.isPlain] using h
    · cases h

theorem Runs.warnings_subset (h : Runs set ctx t s s') (hw : w ∈ s.warnings) : w ∈ s'.warnings := by
  obtain ⟨d, _, rfl⟩ := h.adds
  exact List.mem_append_left _ hw

/-- The warnings about texts after a run are those before it and those of the
leaves that the run comes to. -/
theorem Runs.mem_warnings_iff {context₀ : Context} {ls₀ : List Line} (hw : w.cause.isInline)
    (h : Runs set ctx (.lines context₀ ls₀) s₀ s₀') : w ∈ s₀'.warnings ↔
      w ∈ s₀.warnings ∨ ∃ p s, Reached set ctx (.lines context₀ ls₀) s₀ (.piece p) s ∧
        ∃ text ∈ p.texts, w.line = s.line ∧ w.cause ∈ (Inline.transform ctx text).2 := by
  constructor
  · intro hmem
    refine h.keeps (J := fun s => w ∈ s.warnings → w ∈ s₀.warnings ∨ ∃ p s,
      Reached set ctx (.lines context₀ ls₀) s₀ (.piece p) s ∧
        ∃ text ∈ p.texts, w.line = s.line ∧ w.cause ∈ (Inline.transform ctx text).2)
      .start (fun _ _ => id) (fun _ => id) (fun _ _ => id) ?_ .inl hmem
    intro p s s' _ hr hwrite hs hmem
    have hp : ∀ n cause, p = .warn n cause → cause.isInline = false := by
      rintro n cause rfl
      exact hr.not_isInline
    exact ((Session.mem_warnings_write hw hp hwrite).1 hmem).elim hs fun htext => .inr ⟨p, s, hr, htext⟩
  · rintro (hmem | ⟨p, s, hr, text, htext, hline, hcause⟩)
    · exact h.warnings_subset hmem
    · obtain ⟨s', hp, hlast⟩ := hr.runs (P := fun s => w ∈ s.warnings → w ∈ s₀'.warnings) h id (fun _ => id)
        fun _ _ _ _ hrun hlast hmem => hlast (hrun.warnings_subset hmem)
      have hsimple : p.isSimple := by
        cases p <;> first | rfl | cases htext
      have hp' : ∀ n cause, p = .warn n cause → cause.isInline = false := by
        rintro n cause rfl
        cases htext
      exact hlast ((Session.mem_warnings_write hw hp' ((runs_write hsimple).1 hp)).2
        (.inr ⟨text, htext, hline, hcause⟩))

/-- The warnings about texts in a converted document are those of its session and of
the title of its front matter, where no other title is known. -/
theorem Conversion.mem_warnings_ofSession (hbook : set.solutions = none) (hprofile : set.profile.title = none) :
    w ∈ (ofSession set ctx s).warnings ↔ w ∈ s.warnings ∨ s.heading = none ∧
      ∃ text, s.frontMatter.title = some text ∧ w.line = s.line ∧ w.cause ∈ (Inline.transform ctx text).2 := by
  have hunused : unusedSolutions set (s.closeTo 0) = s.closeTo 0 := by
    unfold unusedSolutions
    split
    · next hsome => cases hbook.symm.trans hsome
    · rfl
  unfold ofSession
  simp only [hunused]
  unfold rootTitle
  simp only [hprofile]
  cases hheading : s.heading with
  | some heading => simp [Session.closeTo, hheading]
  | none =>
    cases htitle : s.frontMatter.title with
    | none => simp [Session.closeTo, hheading, htitle]
    | some text =>
      have hmem : w ∈ ((s.closeTo 0).inline ctx text).2.warnings ↔
          w ∈ s.warnings ∨ w.line = s.line ∧ w.cause ∈ (Inline.transform ctx text).2 := Session.mem_warnings_inline
      simpa [Session.closeTo, hheading, htitle] using hmem

end QuartoPretext
