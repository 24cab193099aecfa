/-
# The footnotes of a text

The marks of footnotes are made of markers, and of nothing else. The rules after
the one for markers keep them as they are and in their order, and add none: so the
footnotes of a text are those of its markers.

Key definitions: `Cell.footnotes`, `Footnote.markersOf`, `Inline.markers`.
Key theorems: `Note.footnotes_resolve`, `Link.footnotes_resolve`,
`Emphasis.footnotes_resolve`, `Inline.footnotes_run`.
-/
import QuartoPretext.Proofs.Inline.Marks

namespace QuartoPretext

/-- The markup of a footnote's text. -/
def Mark.footnote? : Mark → Option Text
  | footnote xml => some xml
  | _ => none

namespace Cell

/-- The footnotes among some cells. -/
def footnotes (cs : List Cell) : List Text := (marks cs).filterMap Mark.footnote?

variable {cs ds : List Cell}

@[simp] theorem footnotes_nil : footnotes [] = [] := rfl

@[simp] theorem footnotes_char (c : Char) (cs : List Cell) : footnotes (.char c :: cs) = footnotes cs := rfl

@[simp] theorem footnotes_cellsOf (s : Text) : footnotes (Span.cellsOf s) = [] := by
  rw [footnotes, Span.marks_cellsOf]
  rfl

@[simp] theorem footnotes_append (cs ds : List Cell) : footnotes (cs ++ ds) = footnotes cs ++ footnotes ds := by
  simp [footnotes]

theorem footnotes_mark {m : Mark} (h : m.footnote? = none) (cs : List Cell) :
    footnotes (.mark m :: cs) = footnotes cs := by
  simp [footnotes, h]

/-- Where no mark is a footnote there are none. -/
theorem footnotes_eq_nil (h : ∀ m ∈ marks cs, m.footnote? = none) : footnotes cs = [] :=
  List.filterMap_eq_nil_iff.2 h

theorem footnotes_of_marks (h : marks cs = marks ds) : footnotes cs = footnotes ds := by
  rw [footnotes, h, footnotes]

end Cell

open Cell

/-! ### Brackets -/

/-- Enclosing the innermost bracket adds no footnote. -/
theorem Bracketing.footnotes_enclose {b : Bracketing} {br : Bracket} {more : List Bracket} (h : b.pending = br :: more)
    {openMark closeMark : Nat → Mark} (hopen : ∀ n, (openMark n).footnote? = none)
    (hclose : ∀ n, (closeMark n).footnote? = none) :
    footnotes (b.enclose br.before more openMark closeMark).cells = footnotes b.cells := by
  rw [cells_pending h b.nextScope, cells_enclose, footnotes_append, footnotes_append, footnotes_append,
    footnotes_mark (hopen _), footnotes_mark (hclose _), footnotes_char, footnotes_nil, List.append_nil]

namespace Note

variable {b : Bracketing} {caret : Bool}

theorem footnotes_close (h : Careted caret b) : footnotes (close b).cells = footnotes b.cells := by
  have hshut : footnotes b.shut.cells = footnotes b.cells := by
    rw [Bracketing.cells_shut, footnotes_append]
    exact List.append_nil _
  unfold close
  split
  · next br more hp =>
    split
    · next hnote =>
      -- the caret that goes with the bracket is no mark
      obtain ⟨before, hbefore⟩ := h.pending br (hp ▸ List.mem_cons_self) hnote
      have hdrop : footnotes (b.enclose br.before.tail more .noteOpen .noteClose).cells =
          footnotes (b.enclose br.before more .noteOpen .noteClose).cells := by
        rw [Bracketing.cells_enclose, Bracketing.cells_enclose, hbefore]
        simp [Bracketing.cells_eq]
      rw [hdrop, Bracketing.footnotes_enclose hp (fun _ => rfl) fun _ => rfl]
    · exact hshut
  · exact hshut

theorem footnotes_read : ∀ (cs : List Cell) (escaped : Bool) {caret : Bool} {b : Bracketing}, Careted caret b →
    footnotes (read caret escaped b cs).cells = footnotes b.cells ++ footnotes cs
  | [], _, _, b, _ => by simp [read]
  | c :: cs, escaped, caret, b, h => by
    unfold read
    split
    · next hc =>
      rw [Cell.eq_of_isChar (Bool.and_eq_true_iff.1 hc).1]
      refine (footnotes_read cs _ h.openBracket).trans ?_
      rw [Bracketing.cells_openBracket, footnotes_append, List.append_assoc]
      rfl
    · split
      · next hc =>
        rw [Cell.eq_of_isChar (Bool.and_eq_true_iff.1 hc).1]
        refine (footnotes_read cs _ h.close).trans ?_
        rw [footnotes_close h, footnotes_char]
      · rw [footnotes_read cs _ (h.push c), Bracketing.cells_push, footnotes_append, List.append_assoc,
          ← footnotes_append]
        rfl

theorem footnotes_resolve (nextScope : Nat) (spans : List Span) :
    footnotes (Span.toCells (resolve nextScope spans).1) = footnotes (Span.toCells spans) := by
  rw [resolve, Span.toCells_ofCells, footnotes_read _ _ (careted_start nextScope), Bracketing.cells_start]
  rfl

end Note

namespace Link

theorem footnotes_close {b : Bracketing} {br : Bracket} {more : List Bracket} (h : b.pending = br :: more)
    (href : Text) : footnotes (close b br more href).cells = footnotes b.cells := by
  unfold close
  split
  · next hempty =>
    have hcells : (Bracketing.mk more (.mark (.bareLink href) :: br.before) b.nextScope).cells =
        (Bracketing.mk more br.before b.nextScope).cells ++ [.mark (.bareLink href)] :=
      Bracketing.cells_push ⟨more, br.before, b.nextScope⟩ _
    rw [Bracketing.cells_pending h b.nextScope, List.isEmpty_iff.1 hempty, hcells, footnotes_append, footnotes_append,
      footnotes_mark rfl]
    rfl
  · exact Bracketing.footnotes_enclose h (fun _ => rfl) fun _ => rfl

theorem footnotes_read (bang escaped : Bool) (b : Bracketing) (cs : List Cell) :
    footnotes (read bang escaped b cs).cells = footnotes b.cells ++ footnotes cs := by
  have pass {b' : Bracketing} {c : Cell} {cells rest : List Cell} (hcells : cells = b'.cells ++ [c]) :
      footnotes b'.cells ++ footnotes (c :: rest) = footnotes cells ++ footnotes rest := by
    rw [hcells, footnotes_append, List.append_assoc, ← footnotes_append [c] rest, List.singleton_append]
  have hread := read_keeps (D := fun b' rest => footnotes b.cells ++ footnotes cs = footnotes b'.cells ++ footnotes rest)
    (fun {b' c _} h => h.trans (pass (Bracketing.cells_push b' c)))
    (fun {b' _} h => h.trans (pass (Bracketing.cells_openBracket b' false)))
    (fun {b' _} h => h.trans (pass (Bracketing.cells_shut b')))
    (fun {b' br more rest href after} hp ht h => by
      rw [h, footnotes_char, footnotes_of_marks (target?_marks ht), footnotes_close hp])
    bang escaped rfl
  rw [hread, footnotes_nil, List.append_nil]

theorem footnotes_resolve (nextScope : Nat) (spans : List Span) :
    footnotes (Span.toCells (resolve nextScope spans).1) = footnotes (Span.toCells spans) := by
  rw [resolve, Span.toCells_ofCells, footnotes_read, Bracketing.cells_start]
  rfl

end Link

/-! ### Emphasis and texts -/

namespace Emphasis

theorem footnotes_written : ∀ ns : List Node, footnotes (ns.flatMap Node.written) = footnotes (sources ns)
  | [] => rfl
  | .cell c :: ns => by
    have ih := footnotes_written ns
    rw [List.flatMap_cons, footnotes_append, ih, ← footnotes_append]
    rfl
  | .run r :: ns => by
    have hrun : footnotes (runCells r) = [] := footnotes_eq_nil fun m hm => by
      obtain ⟨e, rfl | rfl⟩ := mem_marks_runCells hm <;> rfl
    have hsource : footnotes (List.replicate r.delimiters (.char r.char)) = [] := by
      rw [footnotes, marks_replicate]
      rfl
    rw [List.flatMap_cons, Node.written_run, footnotes_append, hrun, sources_run, footnotes_append, hsource,
      footnotes_written ns]

theorem footnotes_resolve (spans : List Span) :
    footnotes (Span.toCells (resolve spans).1) = footnotes (Span.toCells spans) := by
  obtain ⟨ns, haccounts, -⟩ := exists_settled spans
  rw [← haccounts.written, ← haccounts.source, footnotes_written]

end Emphasis

namespace Span

variable (f : Text → List Cell)

@[simp] theorem footnotes_mapText_text (s : Text) (spans : List Span) : footnotes (toCells (mapText f (.text s :: spans))) =
    footnotes (f s) ++ footnotes (toCells (mapText f spans)) := by
  rw [toCells_mapText, toCells_mapText, ← footnotes_append]
  rfl

@[simp] theorem footnotes_mapText_mark (m : Mark) (spans : List Span) : footnotes (toCells (mapText f (.mark m :: spans))) =
    footnotes [.mark m] ++ footnotes (toCells (mapText f spans)) := by
  rw [toCells_mapText, toCells_mapText, ← footnotes_append]
  rfl

variable {f}

theorem footnotes_mapText (hf : ∀ s, footnotes (f s) = []) : ∀ spans : List Span,
    footnotes (toCells (mapText f spans)) = footnotes (toCells spans)
  | [] => rfl
  | .text s :: spans => by
    rw [footnotes_mapText_text, hf, footnotes_mapText hf spans, toCells_text, footnotes_append, footnotes_cellsOf]
  | .mark m :: spans => by
    rw [footnotes_mapText_mark, footnotes_mapText hf spans, toCells_mark, ← footnotes_append]
    rfl

end Span

/-! ### Markers -/

namespace Footnote

/-- The identifiers of the markers in a text. -/
def markers (s : Text) : List Text :=
  (pieces s).filterMap fun
    | .char _ => none
    | .marker id => some id

theorem footnotes_resolve (table : Footnotes) (body : Text → Option Text × List Cause) (s : Text) :
    footnotes (resolve table body s) = (markers s).filterMap fun id => (table.get? id).bind fun note => (body note).1 := by
  rw [resolve, markers]
  induction pieces s with
  | nil => rfl
  | cons p ps ih =>
    rw [List.flatMap_cons, footnotes_append, ih]
    cases p with
    | char c => rfl
    | marker id =>
      simp only [Piece.resolve, resolveMarker, List.filterMap_cons]
      cases table.get? id with
      | none => rfl
      | some note => cases h : (body note).1 <;> simp [h, footnotes, Mark.footnote?]

/-- The identifiers of the markers in the texts among some spans. -/
def markersOf (spans : List Span) : List Text :=
  spans.flatMap fun
    | .text s => markers s
    | .mark _ => []

/-- Where the texts among some spans have no footnotes yet, their markers give them all. -/
theorem footnotes_mapText (table : Footnotes) (body : Text → Option Text × List Cause) : ∀ {spans : List Span},
    (∀ m ∈ Span.marks spans, m.footnote? = none) →
      footnotes (Span.toCells (Span.mapText (resolve table body) spans)) =
        (markersOf spans).filterMap fun id => (table.get? id).bind fun note => (body note).1
  | [], _ => rfl
  | .text s :: spans, h => by
    have ih := @footnotes_mapText table body spans h
    rw [Span.footnotes_mapText_text, ih, footnotes_resolve, ← List.filterMap_append]
    rfl
  | .mark m :: spans, h => by
    obtain ⟨hm, hspans⟩ : m.footnote? = none ∧ ∀ m ∈ Span.marks spans, m.footnote? = none := List.forall_mem_cons.1 h
    rw [Span.footnotes_mapText_mark, footnotes_mark hm, footnotes_mapText table body hspans]
    rfl

end Footnote

namespace Inline

variable (ctx : Context) {body : NoteBody}

/-- The identifiers of the markers that are read in a text, after its math, code
and citations. -/
def markers (s : Text) : List Text := Footnote.markersOf (cited ctx s)

theorem footnote?_cited (s : Text) : ∀ m ∈ Span.marks (cited ctx s), m.footnote? = none := by
  intro m hm
  rcases Span.mem_marks_mapText hm with hm | ⟨t, hm⟩
  · rw [← Span.marks_toCells] at hm
    rcases (shielded_rewrites ctx _ s).mem_marks m hm with hm | ⟨used, hused, _⟩
    · simp at hm
    · cases hused <;> rfl
  · obtain ⟨refs, rfl⟩ := Citation.marks_resolve _ _ t m hm
    rfl

theorem footnotes_notes (s : Text) : footnotes (Span.toCells ((shielded ctx body s).notes ctx body).spans) =
    (markers ctx s).filterMap fun id => (ctx.footnotes.get? id).bind fun note => (body note).1 := by
  have hindex (t : Text) : footnotes (Index.protect t) = [] := footnotes_eq_nil fun m hm => by
    obtain ⟨levels, rfl⟩ := Index.marks_protect t m hm
    rfl
  rw [notes_spans, cited_eq, Span.footnotes_mapText hindex, Note.footnotes_resolve,
    Footnote.footnotes_mapText _ _ (footnote?_cited ctx s), markers]

/-- The footnotes of a text are those of its markers with a definition, in order. -/
theorem footnotes_run (s : Text) : footnotes (Span.toCells (run ctx body s).spans) =
    (markers ctx s).filterMap fun id => (ctx.footnotes.get? id).bind fun note => (body note).1 := by
  have hreferences {f : Text → List Cell} (hf : ∀ s, ∀ m ∈ marks (f s), ∃ refs, m = .references refs) (s : Text) :
      footnotes (f s) = [] := footnotes_eq_nil fun m hm => by
    obtain ⟨refs, rfl⟩ := hf s m hm
    rfl
  have hescape (s : Text) : footnotes (Escape.resolve s) = [] := by
    rw [footnotes, Escape.marks_resolve]
    rfl
  rw [run_eq, ← footnotes_notes]
  simp only [laterRules, List.foldl_cons, List.foldl_nil, apply, Run.links, Run.emphasis, Run.mapText,
    CrossReference.resolve]
  rw [Span.footnotes_mapText hescape, Span.footnotes_mapText (hreferences (CrossReference.marks_bare ctx.kinds)),
    Span.footnotes_mapText (hreferences (CrossReference.marks_bracketed ctx.kinds)), Emphasis.footnotes_resolve,
    Link.footnotes_resolve]

end Inline
end QuartoPretext
