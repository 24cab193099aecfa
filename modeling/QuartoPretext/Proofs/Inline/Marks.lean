/-
# The marks that a run makes

Most marks have markup of their own. The others bear what comes from somewhere
else: markup that stood in the source, which is escaped, and the markup of the
text of a footnote. Brackets and emphasis move marks about and add such as have
markup of their own. So what holds of all these pieces of markup, and of escaped
text, holds of the markup of every text.

Key definitions: `Cell.MarksAll`, `Mark.isOwn`, `Inline.Made`, `Inline.Closed`.
Key theorems: `Inline.Closed.run`, `Inline.made_run`, `Inline.transform_induct`.
-/
import QuartoPretext.Proofs.Inline.Balanced

namespace QuartoPretext

theorem Citation.marks_resolve (policy : CitationPolicy) (isTarget : Text → Bool) (s : Text) :
    ∀ m ∈ Cell.marks (resolve policy isTarget s), ∃ refs, m = .references refs := fun m hm =>
  (keys_resolve policy isTarget s m hm).imp fun _ => And.left

/-! ### Brackets -/

theorem Cell.mem_marks {m : Mark} {cs : List Cell} : m ∈ Cell.marks cs ↔ .mark m ∈ cs := by
  rw [Cell.marks, List.mem_filterMap]
  constructor
  · rintro ⟨c, hc, hm⟩
    cases c with
    | char d => cases hm
    | mark m' =>
      cases hm
      exact hc
  · exact fun h => ⟨_, h, rfl⟩

/-- All marks among some cells are of a kind. -/
def Cell.MarksAll (Q : Mark → Prop) (cs : List Cell) : Prop := ∀ m, .mark m ∈ cs → Q m

variable {Q : Mark → Prop}

theorem Cell.MarksAll.append {cs ds : List Cell} (h : MarksAll Q cs) (h' : MarksAll Q ds) : MarksAll Q (cs ++ ds) :=
  fun m hm => (List.mem_append.1 hm).elim (h m) (h' m)

theorem Cell.MarksAll.subset {cs ds : List Cell} (h : MarksAll Q cs) (hsub : ds ⊆ cs) : MarksAll Q ds :=
  fun m hm => h m (hsub hm)

theorem Cell.marksAll_char (c : Char) : MarksAll Q [.char c] := by simp [MarksAll]

theorem Cell.marksAll_mark {m : Mark} (h : Q m) : MarksAll Q [.mark m] := by simpa [MarksAll] using h

namespace Bracketing

variable {b : Bracketing} {br : Bracket} {more : List Bracket}

theorem marksAll_push (h : Cell.MarksAll Q b.cells) {c : Cell} (hc : Cell.MarksAll Q [c]) :
    Cell.MarksAll Q (b.push c).cells := by
  rw [cells_push]
  exact h.append hc

theorem marksAll_openBracket (h : Cell.MarksAll Q b.cells) (isNote : Bool) :
    Cell.MarksAll Q (b.openBracket isNote).cells := by
  rw [cells_openBracket]
  exact h.append (Cell.marksAll_char '[')

theorem marksAll_shut (h : Cell.MarksAll Q b.cells) : Cell.MarksAll Q b.shut.cells := by
  rw [cells_shut]
  exact h.append (Cell.marksAll_char ']')

/-- Enclosing a bracket, with its caret or without, adds its two marks only. -/
theorem marksAll_enclose (h : Cell.MarksAll Q b.cells) (hp : b.pending = br :: more) {before : List Cell}
    (hbefore : before ⊆ br.before) {openMark closeMark : Nat → Mark} (hopen : ∀ n, Q (openMark n))
    (hclose : ∀ n, Q (closeMark n)) : Cell.MarksAll Q (b.enclose before more openMark closeMark).cells := by
  rw [cells_pending hp b.nextScope] at h
  have houter : Cell.MarksAll Q (Bracketing.mk more before b.nextScope).cells := by
    refine h.subset (List.Subset.trans ?_ (List.subset_append_left _ _))
    intro c hc
    rw [cells_eq, List.mem_reverse, List.mem_append] at hc ⊢
    exact hc.imp_left fun hc => hbefore hc
  have hinner : Cell.MarksAll Q b.current.reverse :=
    h.subset fun c hc => List.mem_append_right _ (List.mem_cons_of_mem _ hc)
  rw [cells_enclose]
  exact (houter.append ((Cell.marksAll_mark (hopen _)).append hinner)).append (Cell.marksAll_mark (hclose _))

end Bracketing

namespace Note

theorem marksAll_close (hopen : ∀ n, Q (.noteOpen n)) (hclose : ∀ n, Q (.noteClose n)) {b : Bracketing}
    (h : Cell.MarksAll Q b.cells) : Cell.MarksAll Q (close b).cells := by
  unfold close
  split
  · next br more hp =>
    split
    · exact Bracketing.marksAll_enclose h hp (List.tail_suffix _).subset hopen hclose
    · exact Bracketing.marksAll_shut h
  · exact Bracketing.marksAll_shut h

theorem marksAll_read (hopen : ∀ n, Q (.noteOpen n)) (hclose : ∀ n, Q (.noteClose n)) :
    ∀ {cs : List Cell} {caret escaped : Bool} {b : Bracketing}, Cell.MarksAll Q b.cells → Cell.MarksAll Q cs →
      Cell.MarksAll Q (read caret escaped b cs).cells
  | [], _, _, _, h, _ => h
  | c :: cs, caret, escaped, b, h, hcs => by
    have hrest : Cell.MarksAll Q cs := hcs.subset (List.subset_cons_self c cs)
    unfold read
    refine marksAll_read hopen hclose ?_ hrest
    split
    · exact Bracketing.marksAll_openBracket h caret
    · split
      · exact marksAll_close hopen hclose h
      · exact Bracketing.marksAll_push h (hcs.subset (by simp))

theorem marksAll_resolve (hopen : ∀ n, Q (.noteOpen n)) (hclose : ∀ n, Q (.noteClose n)) (nextScope : Nat)
    {spans : List Span} (h : Cell.MarksAll Q (Span.toCells spans)) :
    Cell.MarksAll Q (Span.toCells (resolve nextScope spans).1) := by
  rw [resolve, Span.toCells_ofCells]
  exact marksAll_read hopen hclose (fun _ hm => absurd hm List.not_mem_nil) h

end Note

namespace Link

theorem target?_subset {cells after : List Cell} {href : Text} (h : target? cells = some (href, after))
    (hcs : Cell.MarksAll Q cells) : Cell.MarksAll Q after := by
  intro m hm
  rw [← Cell.mem_marks, ← target?_marks h, Cell.mem_marks] at hm
  exact hcs m hm

theorem marksAll_close (hbare : ∀ href, Q (.bareLink href)) (hopen : ∀ href n, Q (.linkOpen href n))
    (hclose : ∀ n, Q (.linkClose n)) {b : Bracketing} {br : Bracket} {more : List Bracket}
    (h : Cell.MarksAll Q b.cells) (hp : b.pending = br :: more) (href : Text) :
    Cell.MarksAll Q (close b br more href).cells := by
  unfold close
  split
  · have hcells : (Bracketing.mk more (.mark (.bareLink href) :: br.before) b.nextScope).cells =
        (Bracketing.mk more br.before b.nextScope).cells ++ [.mark (.bareLink href)] :=
      Bracketing.cells_push ⟨more, br.before, b.nextScope⟩ _
    rw [Bracketing.cells_pending hp b.nextScope] at h
    rw [hcells]
    exact (h.subset (List.subset_append_left _ _)).append (Cell.marksAll_mark (hbare href))
  · exact Bracketing.marksAll_enclose h hp (List.Subset.refl _) (hopen href) hclose

theorem marksAll_read (hbare : ∀ href, Q (.bareLink href)) (hopen : ∀ href n, Q (.linkOpen href n))
    (hclose : ∀ n, Q (.linkClose n)) (bang escaped : Bool) {b : Bracketing} {cs : List Cell}
    (h : Cell.MarksAll Q b.cells) (hcs : Cell.MarksAll Q cs) : Cell.MarksAll Q (read bang escaped b cs).cells := by
  have tail {c : Cell} {rest : List Cell} (hcs : Cell.MarksAll Q (c :: rest)) : Cell.MarksAll Q rest :=
    hcs.subset (List.subset_cons_self c rest)
  refine (read_keeps (D := fun b cs => Cell.MarksAll Q b.cells ∧ Cell.MarksAll Q cs) ?_ ?_ ?_ ?_ bang escaped ⟨h, hcs⟩).1
  · exact fun ⟨h, hcs⟩ => ⟨Bracketing.marksAll_push h (hcs.subset (by simp)), tail hcs⟩
  · exact fun ⟨h, hcs⟩ => ⟨Bracketing.marksAll_openBracket h false, tail hcs⟩
  · exact fun ⟨h, hcs⟩ => ⟨Bracketing.marksAll_shut h, tail hcs⟩
  · exact fun hp ht ⟨h, hcs⟩ => ⟨marksAll_close hbare hopen hclose h hp _, target?_subset ht (tail hcs)⟩

theorem marksAll_resolve (hbare : ∀ href, Q (.bareLink href)) (hopen : ∀ href n, Q (.linkOpen href n))
    (hclose : ∀ n, Q (.linkClose n)) (nextScope : Nat) {spans : List Span}
    (h : Cell.MarksAll Q (Span.toCells spans)) : Cell.MarksAll Q (Span.toCells (resolve nextScope spans).1) := by
  rw [resolve, Span.toCells_ofCells]
  exact marksAll_read hbare hopen hclose false false (fun _ hm => absurd hm List.not_mem_nil) h

end Link

theorem Span.marksAll_mapText {f : Text → List Cell} {spans : List Span}
    (h : Cell.MarksAll Q (toCells spans)) (hf : ∀ s, Cell.MarksAll Q (f s)) :
    Cell.MarksAll Q (toCells (mapText f spans)) := by
  intro m hm
  rw [← Cell.mem_marks, marks_toCells] at hm
  rcases mem_marks_mapText hm with hm | ⟨s, hm⟩
  · rw [← marks_toCells, Cell.mem_marks] at hm
    exact h m hm
  · exact hf s m (Cell.mem_marks.1 hm)

/-! ### The marks of a run -/

/-- Whether the markup of a mark is its own. -/
def Mark.isOwn : Mark → Bool
  | fragment _ | footnote _ => false
  | _ => true

namespace Inline

/-- A mark that is made where notes have their bodies from a function. -/
inductive Made (body : NoteBody) : Mark → Prop
  | fragment (s : Text) : Made body (.fragment (Fragment.escape s))
  | footnote {note xml : Text} : (body note).1 = some xml → Made body (.footnote xml)
  | own {m : Mark} : m.isOwn → Made body m

/-- A kind of marks that has all marks which the rules after the one for code make:
the marks of references by their keys, and those of the notes in the table. -/
structure Closed (ctx : Context) (body : NoteBody) (Q : Mark → Prop) : Prop where
  own : ∀ m : Mark, m.isOwn → (∀ refs, m ≠ .references refs) → Q m
  references : ∀ refs, (∀ r ∈ refs, CrossReference.IsKey ctx.kinds r.key ∨ ctx.citations = .xref) → Q (.references refs)
  footnote : ∀ {id note xml}, ctx.footnotes.get? id = some note → (body note).1 = some xml → Q (.footnote xml)

variable (ctx : Context) {body : NoteBody} {Q : Mark → Prop} {r : Run}

namespace Closed

variable {ctx}

theorem references_of (hQ : Closed ctx body Q) {m : Mark}
    (h : ∃ refs, m = .references refs ∧ ∀ r ∈ refs, CrossReference.IsKey ctx.kinds r.key) : Q m := by
  obtain ⟨refs, rfl, hkeys⟩ := h
  exact hQ.references refs fun r hr => .inl (hkeys r hr)

theorem cited (hQ : Closed ctx body Q) (s : Text) :
    Cell.MarksAll Q (Citation.resolve ctx.citations (CrossReference.isTarget ctx.kinds) s) := fun m hm => by
  obtain ⟨refs, rfl, hkeys⟩ := Citation.keys_resolve _ _ s m (Cell.mem_marks.2 hm)
  exact hQ.references refs fun r hr => (hkeys r hr).imp_left CrossReference.isKey_of_isTarget

theorem marked (hQ : Closed ctx body Q) (s : Text) : Cell.MarksAll Q (Footnote.resolve ctx.footnotes body s) := by
  intro m hm
  have hrewrites : Rewrites (fun _ m => ∃ xml, Q (.footnote xml) ∧ m = .footnote xml) Footnote.IsMarker
      (Span.cellsOf s) (Footnote.resolve ctx.footnotes body s) :=
    Footnote.resolve_rewrites s fun note hnote xml hxml => by
      obtain ⟨p, _, hp⟩ := List.mem_filterMap.1 hnote
      cases p with
      | char c => cases hp
      | marker id => exact hQ.footnote hp hxml
  rcases hrewrites.mem_marks m (Cell.mem_marks.2 hm) with hm | ⟨used, ⟨xml, hxml, rfl⟩, _⟩
  · simp at hm
  · exact hxml

theorem notes (hQ : Closed ctx body Q) (h : Cell.MarksAll Q (Span.toCells r.spans)) :
    Cell.MarksAll Q (Span.toCells (r.notes ctx body).spans) := by
  have hmarked := Span.marksAll_mapText (Span.marksAll_mapText h hQ.cited) hQ.marked
  rw [notes_spans]
  refine Span.marksAll_mapText (Note.marksAll_resolve (fun _ => hQ.own _ rfl nofun) (fun _ => hQ.own _ rfl nofun) _
    hmarked) fun s m hm => ?_
  obtain ⟨levels, rfl⟩ := Index.marks_protect s m (Cell.mem_marks.2 hm)
  exact hQ.own _ rfl nofun

theorem apply (hQ : Closed ctx body Q) {rule : InlineRule} (hrule : rule ∈ laterRules)
    (h : Cell.MarksAll Q (Span.toCells r.spans)) : Cell.MarksAll Q (Span.toCells (apply ctx body r rule).spans) := by
  cases rule with
  | passthrough | math | code => exact absurd hrule (by decide)
  | notes => exact hQ.notes h
  | links =>
    exact Link.marksAll_resolve (fun _ => hQ.own _ rfl nofun) (fun _ _ => hQ.own _ rfl nofun)
      (fun _ => hQ.own _ rfl nofun) _ h
  | emphasis =>
    intro m hm
    rw [← Cell.mem_marks, Span.marks_toCells] at hm
    rcases Emphasis.mem_marks_resolve hm with hm | ⟨e, rfl | rfl⟩
    · rw [← Span.marks_toCells, Cell.mem_marks] at hm
      exact h m hm
    · exact hQ.own _ rfl nofun
    · exact hQ.own _ rfl nofun
  | crossReferences =>
    refine Span.marksAll_mapText (Span.marksAll_mapText h fun s m hm => ?_) fun s m hm => ?_
    · exact hQ.references_of (CrossReference.keys_bracketed ctx.kinds s m (Cell.mem_marks.2 hm))
    · exact hQ.references_of (CrossReference.keys_bare ctx.kinds s m (Cell.mem_marks.2 hm))
  | escapes =>
    refine Span.marksAll_mapText h fun s m hm => ?_
    rw [← Cell.mem_marks, Escape.marks_resolve] at hm
    cases hm

/-- If the marks of markup, math and code are of a kind, all marks of a text are. -/
theorem run (hQ : Closed ctx body Q) {s : Text} (h : Cell.MarksAll Q (Span.toCells (shielded ctx body s).spans)) :
    Cell.MarksAll Q (Span.toCells (run ctx body s).spans) := by
  have hfold : ∀ rules, rules ⊆ laterRules → ∀ r : Run, Cell.MarksAll Q (Span.toCells r.spans) →
      Cell.MarksAll Q (Span.toCells (rules.foldl (Inline.apply ctx body) r).spans) := by
    intro rules
    induction rules with
    | nil => exact fun _ _ h => h
    | cons rule rules ih =>
      intro hsub r h
      exact ih (List.cons_subset.1 hsub).2 _ (hQ.apply (List.cons_subset.1 hsub).1 h)
  rw [run_eq]
  exact hfold laterRules (List.Subset.refl _) _ h

end Closed

theorem made_shielded (s : Text) : Cell.MarksAll (Made body) (Span.toCells (shielded ctx body s).spans) := by
  intro m hm
  rcases (shielded_rewrites ctx body s).mem_marks m (Cell.mem_marks.2 hm) with hm | ⟨used, hused, _⟩
  · simp at hm
  · cases hused with
    | fragment inside => exact .fragment _
    | math _ _ | displayMath _ _ | code _ _ _ => exact .own rfl

theorem made_run (s : Text) : Cell.MarksAll (Made body) (Span.toCells (run ctx body s).spans) := by
  have hclosed : Closed ctx body (Made body) := ⟨fun _ hown _ => .own hown, fun _ _ => .own rfl, fun _ hxml => .footnote hxml⟩
  exact hclosed.run (made_shielded ctx s)

/-! ### What the markup of a text is made of -/

section

variable {P : Text → Prop}

theorem render_induct (nil : P []) (append : ∀ s t, P s → P t → P (s ++ t)) (text : ∀ s, P (Markup.escapeText s)) :
    ∀ {spans : List Span}, Cell.MarksAll (fun m => P m.xml) (Span.toCells spans) → P (Span.render spans)
  | [], _ => nil
  | .text s :: _, h => append _ _ (text s) (render_induct nil append text (h.subset (List.subset_append_right _ _)))
  | .mark m :: _, h =>
    append _ _ (h m List.mem_cons_self) (render_induct nil append text (h.subset (List.subset_cons_self _ _)))

/-- What holds of escaped text and of the markup of all marks, and of one after the
other, holds of the markup of every text. -/
theorem transform_induct (nil : P []) (append : ∀ s t, P s → P t → P (s ++ t)) (text : ∀ s, P (Markup.escapeText s))
    (fragment : ∀ s, P (Fragment.escape s)) (footnote : ∀ xml, P xml → P (Mark.footnote xml).xml)
    (own : ∀ m : Mark, m.isOwn → P m.xml) (s : Text) : P (transform ctx s).1 := by
  have hrun : ∀ (body : NoteBody) (s : Text), (∀ note xml, (body note).1 = some xml → P xml) →
      P (Span.render (run ctx body s).spans) := by
    intro body s hbody
    refine render_induct nil append text fun m hm => ?_
    cases made_run ctx s m hm with
    | fragment s => exact fragment s
    | footnote hxml => exact footnote _ (hbody _ _ hxml)
    | own hown => exact own m hown
  have hall : ∀ (depth : Nat) (s : Text), P (transformWithin ctx depth s).1 := by
    intro depth
    induction depth with
    | zero =>
      intro s
      rw [transformWithin_eq]
      exact hrun _ s nofun
    | succ depth ih =>
      intro s
      rw [transformWithin_eq]
      refine hrun _ s fun note xml hxml => ?_
      cases hxml
      exact ih note
  exact hall noteDepth s

end

end Inline
end QuartoPretext
