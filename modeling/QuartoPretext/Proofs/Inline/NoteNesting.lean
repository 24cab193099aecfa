/-
# Inline notes are nested

While cells are read for notes, the cells since each open bracket are nested on
their own, as they are for links. A note takes the caret before its bracket with
it, which is text. So the marks of notes are nested where nothing else has been
opened, and each bears a number of its own.

Key definitions: `Mark.OfNotes`, `Cell.NestedNotes`.
Key theorems: `Note.read_nests`, `Note.nested_resolve`, `Inline.nested_notes`.
-/
import QuartoPretext.Proofs.Inline.Marks

namespace QuartoPretext

/-- A mark that opens and closes notes only, or nothing. -/
def Mark.OfNotes (m : Mark) : Prop := ∀ o, m.opening? = some o ∨ m.closing? = some o → ∃ n, o = .note n

theorem Mark.IsInert.ofNotes {m : Mark} (h : m.IsInert) : m.OfNotes := by
  rintro o (ho | ho)
  · rw [h.1] at ho
    cases ho
  · rw [h.2] at ho
    cases ho

/-- Cells in which nested notes are opened, each once and under a number below the
next free one, and nothing else. -/
structure Cell.NestedNotes (cs : List Cell) (nextScope : Nat) : Prop where
  walk : Cell.walk [] cs = some []
  nodup : (Cell.opens cs).Nodup
  fresh : ∀ n ∈ Cell.opens cs, n < nextScope
  marks : ∀ m ∈ Cell.marks cs, m.OfNotes

/-! ### Reading notes -/

/-- A character before the innermost bracket counts for nothing. -/
theorem Bracketing.Nests.dropChar {P : Mark → Prop} {b : Bracketing} {br : Bracket} {more : List Bracket} {c : Char}
    {before : List Cell} (h : b.Nests P) (hp : b.pending = br :: more) (hbr : br.before = .char c :: before) :
    ({ b with pending := ⟨before, br.isNote⟩ :: more } : Bracketing).Nests P := by
  have hcells : b.cells = (Bracketing.mk more before b.nextScope).cells ++ .char c :: .char '[' :: b.current.reverse := by
    have hpush : (Bracketing.mk more (.char c :: before) b.nextScope).cells = _ := cells_push ⟨more, before, b.nextScope⟩ _
    rw [cells_pending hp b.nextScope, hbr, hpush, List.append_assoc]
    rfl
  have hcells' : ({ b with pending := ⟨before, br.isNote⟩ :: more } : Bracketing).cells =
      (Bracketing.mk more before b.nextScope).cells ++ .char '[' :: b.current.reverse :=
    cells_pending (b := { b with pending := ⟨before, br.isNote⟩ :: more }) rfl b.nextScope
  have hfresh := h.fresh
  have hnodup := h.nodup
  have hmarks := h.marks
  rw [hcells, Cell.opens_append, Cell.opens_char] at hfresh hnodup
  rw [hcells, Cell.marks_append, Cell.marks_char] at hmarks
  refine ⟨h.current, List.forall_mem_cons.2 ⟨?_, fun br' hbr' => h.pending br' (hp ▸ List.mem_cons_of_mem br hbr')⟩,
    ?_, ?_, ?_⟩
  · have hwalk := h.pending br (hp ▸ List.mem_cons_self)
    rw [hbr, List.reverse_cons] at hwalk
    obtain ⟨σ, hσ, hlast⟩ := Cell.exists_of_walk_append hwalk
    cases hlast
    exact hσ
  · rw [hcells', Cell.opens_append]
    exact hfresh
  · rw [hcells', Cell.opens_append]
    exact hnodup
  · rw [hcells', Cell.marks_append]
    exact hmarks

namespace Note

variable {P : Mark → Prop} {caret : Bool} {b : Bracketing}

theorem close_nests (hopen : ∀ n, P (.noteOpen n)) (hclose : ∀ n, P (.noteClose n)) (hb : Careted caret b)
    (h : b.Nests P) : (close b).Nests P := by
  unfold close
  split
  · next br more hp =>
    split
    · next hnote =>
      obtain ⟨before, hbefore⟩ := hb.pending br (hp ▸ List.mem_cons_self) hnote
      rw [hbefore]
      have hnests := (h.dropChar hp hbefore).enclose rfl (o := .note) (fun _ => rfl) (fun _ => rfl) (fun _ => rfl)
        fun n => ⟨hopen n, hclose n⟩
      exact hnests
    · exact h.shut
  · exact h.shut

theorem read_nests (hopen : ∀ n, P (.noteOpen n)) (hclose : ∀ n, P (.noteClose n)) :
    ∀ (cs : List Cell) (escaped : Bool) {caret : Bool} {b : Bracketing}, Careted caret b → b.Nests P →
      (∀ m ∈ Cell.marks cs, m.IsInert ∧ P m) → (read caret escaped b cs).Nests P
  | [], _, _, _, _, h, _ => h
  | c :: cs, escaped, caret, b, hb, h, hcs => by
    have hrest : ∀ m ∈ Cell.marks cs, m.IsInert ∧ P m := fun m hm =>
      hcs m (((List.sublist_cons_self c cs).filterMap _).subset hm)
    unfold read
    split
    · next hc =>
      rw [Cell.eq_of_isChar (Bool.and_eq_true_iff.1 hc).1]
      exact read_nests hopen hclose cs _ hb.openBracket (h.openBracket caret) hrest
    · split
      · next hc =>
        rw [Cell.eq_of_isChar (Bool.and_eq_true_iff.1 hc).1]
        exact read_nests hopen hclose cs _ hb.close (close_nests hopen hclose hb h) hrest
      · refine read_nests hopen hclose cs _ (hb.push c) (h.push fun m hm => ?_) hrest
        subst hm
        exact hcs m List.mem_cons_self

/-- Notes among marks that open and close nothing are nested. -/
theorem nested_resolve (nextScope : Nat) {spans : List Span} (h : ∀ m ∈ Span.marks spans, m.IsInert) :
    Cell.NestedNotes (Span.toCells (resolve nextScope spans).1) (resolve nextScope spans).2 := by
  rw [← Span.marks_toCells] at h
  have hopen (n : Nat) : (Mark.noteOpen n).OfNotes := by
    rintro o (ho | ho) <;> cases ho
    exact ⟨n, rfl⟩
  have hclose (n : Nat) : (Mark.noteClose n).OfNotes := by
    rintro o (ho | ho) <;> cases ho
    exact ⟨n, rfl⟩
  have hn := read_nests hopen hclose (Span.toCells spans) false (careted_start nextScope)
    (Bracketing.nests_start _ nextScope) fun m hm => ⟨h m hm, (h m hm).ofNotes⟩
  have hcells : Span.toCells (resolve nextScope spans).1 =
      (read false false (.start nextScope) (Span.toCells spans)).cells := Span.toCells_ofCells _
  rw [hcells]
  exact ⟨hn.walk, hn.nodup, hn.fresh, hn.marks⟩

end Note

/-! ### A text after the rule for notes -/

theorem Footnote.marks_resolve (table : Footnotes) (body : Inline.NoteBody) (s : Text) :
    ∀ m ∈ Cell.marks (resolve table body s), ∃ xml, m = .footnote xml := by
  intro m hm
  have hrewrites : Rewrites (fun _ m => ∃ xml, True ∧ m = .footnote xml) IsMarker (Span.cellsOf s)
      (resolve table body s) := resolve_rewrites s fun _ _ _ _ => trivial
  rcases hrewrites.mem_marks m hm with hm | ⟨_, ⟨xml, -, rfl⟩, -⟩
  · simp at hm
  · exact ⟨xml, rfl⟩

theorem Span.opens_mapText {f : Text → List Cell} (hf : ∀ s, ∀ m ∈ Cell.marks (f s), m.IsInert) (spans : List Span) :
    Cell.opens (toCells (mapText f spans)) = Cell.opens (toCells spans) := by
  rw [toCells_mapText]
  induction spans with
  | nil => rfl
  | cons span spans ih =>
    cases span with
    | text s =>
      have hs : mapCells f (.text s :: spans) = f s ++ mapCells f spans := rfl
      have hinert : Cell.opens (f s) = [] :=
        List.filterMap_eq_nil_iff.2 fun m hm => by rw [(hf s m hm).1, Option.bind_none]
      have htext : Cell.opens (cellsOf s) = [] := by simp [Cell.opens]
      rw [hs, toCells_text, Cell.opens_append, Cell.opens_append, hinert, htext, ih]
    | mark m =>
      have hm : mapCells f (.mark m :: spans) = .mark m :: mapCells f spans := rfl
      rw [hm, toCells_mark, Cell.opens_mark, Cell.opens_mark, ih]

theorem Cell.NestedNotes.mapText {f : Text → List Cell} {spans : List Span} {nextScope : Nat}
    (h : NestedNotes (Span.toCells spans) nextScope) (hf : ∀ s, ∀ m ∈ Cell.marks (f s), m.Whole) :
    NestedNotes (Span.toCells (Span.mapText f spans)) nextScope := by
  have hopens := Span.opens_mapText (fun s m hm => (hf s m hm).inert) spans
  refine ⟨(Span.walk_mapText hf spans []).trans h.walk, hopens ▸ h.nodup, hopens ▸ h.fresh, fun m hm => ?_⟩
  rw [Span.marks_toCells] at hm
  rcases Span.mem_marks_mapText hm with hm | ⟨s, hm⟩
  · exact h.marks m (Span.marks_toCells spans ▸ hm)
  · exact (hf s m hm).inert.ofNotes

theorem Shields.inert {used : Text} {m : Mark} (h : Shields used m) : m.IsInert := by
  cases h <;> exact ⟨rfl, rfl⟩

namespace Inline

variable (ctx : Context) (body : NoteBody) (s : Text)

theorem notes_nextScope (r : Run) : (r.notes ctx body).nextScope =
    (Note.resolve r.nextScope (Span.mapText (Footnote.resolve ctx.footnotes body)
      (Span.mapText (Citation.resolve ctx.citations (CrossReference.isTarget ctx.kinds)) r.spans))).2 := by
  simp only [Run.notes, Run.mapText, Run.warn]

/-- Inline notes are nested in every text, and nothing else is open yet. -/
theorem nested_notes : Cell.NestedNotes (Span.toCells ((shielded ctx body s).notes ctx body).spans)
    ((shielded ctx body s).notes ctx body).nextScope := by
  have hshielded : ∀ m ∈ Span.marks (shielded ctx body s).spans, m.IsInert := by
    intro m hm
    rcases (shielded_rewrites ctx body s).mem_marks m (Span.marks_toCells _ ▸ hm) with hm | ⟨used, hused, _⟩
    · simp at hm
    · exact hused.inert
  have hcited : ∀ m ∈ Span.marks (Span.mapText (Citation.resolve ctx.citations (CrossReference.isTarget ctx.kinds))
      (shielded ctx body s).spans), m.IsInert := by
    intro m hm
    rcases Span.mem_marks_mapText hm with hm | ⟨t, hm⟩
    · exact hshielded m hm
    · obtain ⟨refs, rfl⟩ := Citation.marks_resolve _ _ t m hm
      exact ⟨rfl, rfl⟩
  rw [notes_spans, notes_nextScope]
  refine (Note.nested_resolve (shielded ctx body s).nextScope fun m hm => ?_).mapText fun t m hm => ?_
  · rcases Span.mem_marks_mapText hm with hm | ⟨t, hm⟩
    · exact hcited m hm
    · obtain ⟨xml, rfl⟩ := Footnote.marks_resolve _ body t m hm
      exact ⟨rfl, rfl⟩
  · obtain ⟨levels, rfl⟩ := Index.marks_protect t m hm
    exact Mark.whole_index levels

end Inline
end QuartoPretext
