/-
# Spans of a divided text

Where a rule makes marks of some stretches of a text and leaves the text between
as it is, the spans are these marks and texts, and a later rule looks at each of
the texts on its own.

Key theorems: `Span.ofCells_division`, `Span.mapText_division`,
`Span.marks_division`.
-/
import QuartoPretext.Proofs.Inline.Rewrite
import QuartoPretext.Proofs.Text.Division

namespace QuartoPretext.Span

theorem ofCells_nil_ne (s : Text) (more : List Span) : ofCells [] ≠ text s :: more := by
  rw [ofCells]
  exact (List.cons_ne_nil (text s) more).symm

/-- A text before cells that start with no character is one span, unless it is empty. -/
theorem ofCells_append {cs : List Cell} (hcs : ∀ s more, ofCells cs ≠ text s :: more) : ∀ {t : Text}, t ≠ [] →
    ofCells (cellsOf t ++ cs) = text t :: ofCells cs
  | [c], _ => by
    show ofCells (.char c :: cs) = _
    rw [ofCells]
    split
    · next s more h => exact absurd h (hcs s more)
    · rfl
  | c :: d :: t, _ => by
    have ih := ofCells_append hcs (List.cons_ne_nil d t)
    show ofCells (.char c :: (cellsOf (d :: t) ++ cs)) = _
    rw [ofCells, ih]

/-- A text as spans: none where it is empty. -/
def ofText (t : Text) : List Span := if t = [] then [] else [text t]

/-- Between marks the characters of a text make one span each. -/
theorem ofCells_division (μ : Text → Mark) (d : Text.Division) :
    ofCells (d.map cellsOf fun m => [.mark (μ m)]) = d.map ofText fun m => [mark (μ m)] := by
  have hspans {t : Text} {cs : List Cell} (hcs : ∀ s more, ofCells cs ≠ text s :: more) :
      ofCells (cellsOf t ++ cs) = ofText t ++ ofCells cs := by
    cases t with
    | nil => rfl
    | cons c t => exact ofCells_append hcs (List.cons_ne_nil c t)
  induction d with
  | last t =>
    have h := hspans (t := t) ofCells_nil_ne
    rw [List.append_nil] at h
    rw [Text.Division.map, Text.Division.map, h, ofCells, List.append_nil]
  | next t m more ih =>
    have hmark : ofCells (.mark (μ m) :: more.map cellsOf fun m => [.mark (μ m)]) =
        mark (μ m) :: more.map ofText fun m => [mark (μ m)] := by rw [ofCells, ih]
    rw [Text.Division.map, List.append_assoc, List.singleton_append,
      hspans (fun s more h => by rw [hmark] at h; cases h), hmark, Text.Division.map, List.append_assoc]
    rfl

/-- The first rule starts from one text. -/
theorem mapText_cellsOf {f : Text → List Cell} (hf : f [] = []) (s : Text) :
    mapText f (ofCells (cellsOf s)) = ofCells (f s) := by
  cases s with
  | nil =>
    rw [hf]
    rfl
  | cons c s =>
    have h : ofCells (cellsOf (c :: s) ++ []) = text (c :: s) :: ofCells [] :=
      ofCells_append ofCells_nil_ne (List.cons_ne_nil c s)
    rw [List.append_nil] at h
    rw [h]
    show ofCells (f (c :: s) ++ []) = _
    rw [List.append_nil]

/-- A later rule transforms the texts between the marks. -/
theorem mapText_division {f : Text → List Cell} (hf : f [] = []) (μ : Text → Mark) (d : Text.Division) :
    mapText f (ofCells (d.map cellsOf fun m => [.mark (μ m)])) = ofCells (d.map f fun m => [.mark (μ m)]) := by
  show ofCells (mapCells f _) = _
  rw [ofCells_division, mapCells, Text.Division.flatMap_map]
  congr 1
  refine Text.Division.map_congr (fun t _ => ?_) fun m _ => List.append_nil _
  unfold ofText
  split
  · next h =>
    rw [h, hf]
    rfl
  · exact List.append_nil _

theorem marks_division (μ : Text → Mark) (d : Text.Division) :
    Cell.marks (d.map cellsOf fun m => [.mark (μ m)]) = d.found.map μ := by
  induction d with
  | last t => exact marks_cellsOf t
  | next t m more ih =>
    rw [Text.Division.map, Cell.marks_append, Cell.marks_append, marks_cellsOf, ih]
    rfl

end QuartoPretext.Span
