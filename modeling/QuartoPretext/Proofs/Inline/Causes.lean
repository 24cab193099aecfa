/-
# What a transformation warns of

A text in transformation gives rise to two warnings only: a delimiter has no
partner, or a footnote has no definition. This holds for the notes within the
text too, which are transformed on their own.

Key definitions: `Cause.isInline`.
Key theorems: `Inline.transform_causes`.
-/
import QuartoPretext.Proofs.Inline.Protected

namespace QuartoPretext

/-- What the transformation of a text can warn of. -/
def Cause.isInline : Cause → Bool
  | unmatched _ | undefinedFootnote _ => true
  | _ => false

theorem Math.isInline_warnings {s : Text} : ∀ c ∈ warnings s, c.isInline := by
  intro c hc
  obtain ⟨p, _, hp⟩ := List.mem_filterMap.1 hc
  cases p with
  | unmatched delimiter =>
    cases hp
    rfl
  | _ => cases hp

theorem Emphasis.isInline_warnings {rs : List DelimiterRun} : ∀ c ∈ warnings rs, c.isInline := by
  intro c hc
  obtain ⟨r, _, rfl⟩ := List.mem_map.1 hc
  rfl

theorem Footnote.isInline_warnings {table : Footnotes} {body : Text → Option Text × List Cause} {s : Text}
    (hbody : ∀ note, ∀ c ∈ (body note).2, c.isInline) : ∀ c ∈ warnings table body s, c.isInline := by
  intro c hc
  obtain ⟨p, _, hp⟩ := List.mem_flatMap.1 hc
  cases p with
  | char x => cases hp
  | marker id =>
    simp only [Piece.resolve, resolveMarker] at hp
    split at hp
    · rw [List.mem_singleton.1 hp]
      rfl
    · exact hbody _ c hp

namespace Inline

variable {ctx : Context} {body : NoteBody} {r : Run}

theorem Run.isInline_warn {f : Text → List Cause} (hr : ∀ c ∈ r.causes, c.isInline)
    (hf : ∀ s, ∀ c ∈ f s, c.isInline) : ∀ c ∈ (r.warn f).causes, c.isInline := by
  refine List.forall_mem_append.2 ⟨hr, fun c hc => ?_⟩
  obtain ⟨span, _, hspan⟩ := List.mem_flatMap.1 hc
  cases span with
  | text s => exact hf s c hspan
  | mark m => cases hspan

theorem apply_causes (hbody : ∀ note, ∀ c ∈ (body note).2, c.isInline) (hr : ∀ c ∈ r.causes, c.isInline)
    (rule : InlineRule) : ∀ c ∈ (apply ctx body r rule).causes, c.isInline := by
  cases rule with
  | math => exact Run.isInline_warn hr fun _ => Math.isInline_warnings
  | notes =>
    have hnotes : (apply ctx body r .notes).causes =
        ((r.mapText (Citation.resolve ctx.citations (CrossReference.isTarget ctx.kinds))).warn
          (Footnote.warnings ctx.footnotes body)).causes := rfl
    rw [hnotes]
    exact Run.isInline_warn hr fun _ => Footnote.isInline_warnings hbody
  | emphasis => exact List.forall_mem_append.2 ⟨hr, Emphasis.isInline_warnings⟩
  | _ => exact hr

theorem foldl_causes (hbody : ∀ note, ∀ c ∈ (body note).2, c.isInline) : ∀ (rules : List InlineRule) {r : Run},
    (∀ c ∈ r.causes, c.isInline) → ∀ c ∈ (rules.foldl (apply ctx body) r).causes, c.isInline
  | [], _, hr => hr
  | rule :: rules, _, hr => foldl_causes hbody rules (apply_causes hbody hr rule)

theorem run_causes (hbody : ∀ note, ∀ c ∈ (body note).2, c.isInline) (s : Text) :
    ∀ c ∈ (run ctx body s).causes, c.isInline := by
  have hstart : ∀ c ∈ (Run.start s).causes, c.isInline := List.forall_mem_nil _
  rw [run]
  exact foldl_causes hbody _ hstart

theorem transformWithin_snd (depth : Nat) (s : Text) :
    (transformWithin ctx depth s).2 = (run ctx (noteBody ctx depth) s).causes := by rw [transformWithin_run]

theorem noteBody_causes (depth : Nat) : ∀ note, ∀ c ∈ (noteBody ctx depth note).2, c.isInline := by
  induction depth with
  | zero => exact fun _ => List.forall_mem_nil _
  | succ depth ih =>
    intro note
    show ∀ c ∈ (transformWithin ctx depth note).2, c.isInline
    rw [transformWithin_snd]
    exact run_causes ih note

/-- A transformation warns of unmatched delimiters and of undefined footnotes. -/
theorem transform_causes (ctx : Context) (s : Text) : ∀ c ∈ (transform ctx s).2, c.isInline := by
  rw [transform, transformWithin_snd]
  exact run_causes (noteBody_causes noteDepth) s

end Inline
end QuartoPretext
