/-
# Protected content

The marks that the first three rules make stay, in order and as they are,
through all later rules. So the markup of a text holds theirs, one after the
other.

Key definitions: `Text.InOrder`, `Inline.shielded`, `Inline.laterRules`.
Key theorems: `Inline.apply_marks`, `Inline.protected_content`.
-/
import QuartoPretext.Proofs.Emphasis.Account
import QuartoPretext.Proofs.Inline.Bracket
import QuartoPretext.Proofs.Inline.Shield

namespace QuartoPretext

/-! ### Texts within a text -/

/-- Some texts stand in a text one after the other. -/
inductive Text.InOrder : List Text → Text → Prop
  | nil (s : Text) : InOrder [] s
  | cons {part : Text} {parts : List Text} {s : Text} (before : Text) : InOrder parts s →
      InOrder (part :: parts) (before ++ part ++ s)

namespace Text.InOrder

variable {parts parts' : List Text} {s : Text}

theorem prepend (h : InOrder parts s) (t : Text) : InOrder parts (t ++ s) := by
  cases h with
  | nil s => exact .nil _
  | cons before h =>
    rw [← List.append_assoc, ← List.append_assoc]
    exact .cons (t ++ before) h

theorem sublist (h : InOrder parts' s) (hs : parts.Sublist parts') : InOrder parts s := by
  induction h generalizing parts with
  | nil s =>
    rw [List.sublist_nil.1 hs]
    exact .nil s
  | @cons part parts' s before h ih =>
    cases hs with
    | cons _ hs => exact (ih hs).prepend _
    | cons_cons _ hs => exact .cons before (ih hs)

theorem isInfix {part : Text} (h : InOrder parts s) (hpart : part ∈ parts) : part <:+: s := by
  induction h with
  | nil s => cases hpart
  | @cons first parts s before h ih =>
    rcases List.mem_cons.1 hpart with rfl | hpart
    · exact ⟨before, s, rfl⟩
    · exact (ih hpart).trans (List.suffix_append (before ++ first) s).isInfix

end Text.InOrder

theorem Span.render_inOrder : ∀ spans : List Span, Text.InOrder ((marks spans).map Mark.xml) (render spans)
  | [] => .nil _
  | .text s :: spans => (render_inOrder spans).prepend (Markup.escapeText s)
  | .mark _ :: spans => .cons [] (render_inOrder spans)

/-! ### All rules -/

namespace Inline

variable (ctx : Context) (body : NoteBody)

/-- A text after the rules for markup, math and code. -/
def shielded (s : Text) : Run := [InlineRule.passthrough, .math, .code].foldl (apply ctx body) (.start s)

/-- The rules after the one for code. -/
def laterRules : List InlineRule := [.notes, .links, .emphasis, .crossReferences, .escapes]

theorem run_eq (s : Text) : run ctx body s = laterRules.foldl (apply ctx body) (shielded ctx body s) := by
  have hall : InlineRule.all = [.passthrough, .math, .code] ++ laterRules := rfl
  rw [run, hall, List.foldl_append, shielded]

theorem shielded_spans (s : Text) : (shielded ctx body s).spans =
    Span.mapText Code.protect (Span.mapText Math.protect (Span.mapText Fragment.protect (Run.start s).spans)) := by
  simp only [shielded, List.foldl_cons, List.foldl_nil, apply, Run.mapText, Run.warn]

theorem notes_spans (r : Run) : (r.notes ctx body).spans =
    Span.mapText Index.protect (Note.resolve r.nextScope (Span.mapText (Footnote.resolve ctx.footnotes body)
      (Span.mapText (Citation.resolve ctx.citations (CrossReference.isTarget ctx.kinds)) r.spans))).1 := by
  simp only [Run.notes, Run.mapText, Run.warn]

theorem notes_marks (r : Run) : (Span.marks r.spans).Sublist (Span.marks (r.notes ctx body).spans) := by
  rw [notes_spans]
  exact (((Span.marks_mapText _ _).trans (Span.marks_mapText _ _)).trans (Note.resolve_marks _ _)).trans
    (Span.marks_mapText _ _)

/-- No rule loses a mark. -/
theorem apply_marks (r : Run) (rule : InlineRule) :
    (Span.marks r.spans).Sublist (Span.marks (apply ctx body r rule).spans) := by
  cases rule with
  | passthrough | math | code | escapes => exact Span.marks_mapText _ _
  | notes => exact notes_marks ctx body r
  | links => exact Link.resolve_marks _ _
  | emphasis => exact Emphasis.resolve_marks _
  | crossReferences => exact (Span.marks_mapText _ _).trans (Span.marks_mapText _ _)

theorem foldl_marks : ∀ (rules : List InlineRule) (r : Run),
    (Span.marks r.spans).Sublist (Span.marks (rules.foldl (apply ctx body) r).spans)
  | [], _ => .refl _
  | rule :: rules, r => (apply_marks ctx body r rule).trans (foldl_marks rules _)

/-- What the first three rules make of a text: its characters, and marks for
stretches of it. -/
theorem shielded_rewrites (s : Text) :
    Rewrites Shields dropsNothing (Span.cellsOf s) (Span.toCells (shielded ctx body s).spans) := by
  have h₁ := Rewrites.mapText (Run.start s).spans fun s _ => Fragment.protect_rewrites s
  have h₂ := Rewrites.mapText (Span.mapText Fragment.protect (Run.start s).spans)
    fun s _ => Math.protect_rewrites s
  have h₃ := Rewrites.mapText (Span.mapText Math.protect (Span.mapText Fragment.protect (Run.start s).spans))
    fun s _ => Code.protect_rewrites s
  have hstart : Span.toCells (Run.start s).spans = Span.cellsOf s := Span.toCells_ofCells _
  rw [hstart] at h₁
  rw [shielded_spans]
  refine ((h₁.trans h₂).trans h₃).mono ?_
  rintro used m ((h | h) | h) <;> exact h

theorem render_run_inOrder (s : Text) :
    Text.InOrder ((Span.marks (shielded ctx body s).spans).map Mark.xml)
      (Span.render (run ctx body s).spans) := by
  have hsub := foldl_marks ctx body laterRules (shielded ctx body s)
  rw [← run_eq] at hsub
  exact (Span.render_inOrder _).sublist (hsub.map _)

/-- What stands for a note where notes may be some levels deep around it. -/
def noteBody (ctx : Context) : Nat → NoteBody
  | 0 => fun _ => (none, [])
  | depth + 1 => fun note => (some (transformWithin ctx depth note).1, (transformWithin ctx depth note).2)

theorem transformWithin_run : ∀ (depth : Nat) (s : Text), transformWithin ctx depth s =
    (Span.render (run ctx (noteBody ctx depth) s).spans, (run ctx (noteBody ctx depth) s).causes)
  | 0, _ => by simp only [transformWithin, noteBody]
  | _ + 1, _ => by simp only [transformWithin, noteBody]

theorem transformWithin_eq (depth : Nat) (s : Text) :
    (transformWithin ctx depth s).1 = Span.render (run ctx (noteBody ctx depth) s).spans := by
  rw [transformWithin_run]

/-- Markup, math and code are made of stretches of the text, and say what stands
there. They stay through all later rules, and so does their markup in the result. -/
theorem protected_content (s : Text) :
    Rewrites Shields dropsNothing (Span.cellsOf s) (Span.toCells (shielded ctx body s).spans) ∧
    (∀ later, later <+: laterRules → (Span.marks (shielded ctx body s).spans).Sublist
      (Span.marks (later.foldl (apply ctx body) (shielded ctx body s)).spans)) ∧
    Text.InOrder ((Span.marks (shielded ctx body s).spans).map Mark.xml)
      (Span.render (run ctx body s).spans) ∧
    ∀ depth, Text.InOrder ((Span.marks (shielded ctx body s).spans).map Mark.xml)
      (transformWithin ctx depth s).1 := by
  refine ⟨shielded_rewrites ctx body s, fun later _ => foldl_marks ctx body later _,
    render_run_inOrder ctx body s, fun depth => ?_⟩
  rw [transformWithin_eq, shielded_spans ctx body, ← shielded_spans ctx (noteBody ctx depth)]
  exact render_run_inOrder ctx _ s

end Inline
end QuartoPretext
