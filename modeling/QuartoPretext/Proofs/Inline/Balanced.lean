/-
# The markup of a text is balanced

A text without angle brackets and without carets before brackets is transformed
to balanced markup, if the texts of its notes are. The marks before the rule for
links open and close nothing. Links and emphasis are nested, and the rules after
them add marks that open and close nothing.

Key definitions: `Mark.Whole`, `Span.Nests`, `Inline.IsPlain`, `Inline.asked`,
`Inline.Hands`.
Key theorems: `Link.nests_resolve`, `Inline.notes_whole`, `Inline.balanced_run`,
`Inline.balanced_transform`.
-/
import QuartoPretext.Proofs.Inline.EmphasisNesting
import QuartoPretext.Proofs.Inline.LinkNesting
import QuartoPretext.Proofs.Inline.Notes
import QuartoPretext.Proofs.Inline.Protected
import QuartoPretext.Proofs.Inline.ReferenceKeys

namespace QuartoPretext

/-! ### The marks that rules make -/

/-- A mark with balanced markup of its own. -/
structure Mark.Whole (m : Mark) : Prop where
  inert : m.IsInert
  sound : m.Sound

theorem Mark.whole_references (refs : List Reference) : (references refs).Whole :=
  ⟨⟨rfl, rfl⟩, sound_references refs⟩

theorem Mark.whole_index (levels : List Text) : (index levels).Whole := ⟨⟨rfl, rfl⟩, sound_index levels⟩

theorem Shields.whole {used : Text} {m : Mark} (h : Shields used m) (hused : '<' ∉ used) : m.Whole := by
  cases h with
  | fragment inside => exact absurd List.mem_cons_self hused
  | math _ _ => exact ⟨⟨rfl, rfl⟩, Mark.sound_math _⟩
  | displayMath _ _ => exact ⟨⟨rfl, rfl⟩, Mark.sound_displayMath _⟩
  | code _ _ _ => exact ⟨⟨rfl, rfl⟩, Mark.sound_code _⟩

theorem Index.marks_protect (s : Text) : ∀ m ∈ Cell.marks (protect s), ∃ levels, m = .index levels := by
  refine Text.marks_scan ?_ s
  intro t xs rest h m hm
  obtain ⟨⟨entry, rest'⟩, _, he⟩ := Option.map_eq_some_iff.1 h
  cases he
  exact ⟨_, List.mem_singleton.1 hm⟩

theorem CrossReference.marks_bracketed (kinds : List Text) (s : Text) :
    ∀ m ∈ Cell.marks (Text.scan Cell.char (bracketed? kinds) s), ∃ refs, m = .references refs := fun m hm =>
  (keys_bracketed kinds s m hm).imp fun _ => And.left

theorem CrossReference.marks_bare (kinds : List Text) (s : Text) :
    ∀ m ∈ Cell.marks (bare kinds s), ∃ refs, m = .references refs := fun m hm =>
  (keys_bare kinds s m hm).imp fun _ => And.left

theorem Escape.marks_resolve (s : Text) : Cell.marks (resolve s) = [] := by
  rw [resolve, Span.marks_cellsOf]

/-! ### Spans -/

namespace Span

theorem mem_marks_mapText {f : Text → List Cell} {m : Mark} : ∀ {spans : List Span},
    m ∈ marks (mapText f spans) → m ∈ marks spans ∨ ∃ s, m ∈ Cell.marks (f s) := by
  intro spans h
  rw [← marks_toCells, toCells_mapText] at h
  induction spans with
  | nil => cases h
  | cons span spans ih =>
    have hcons : mapCells f (span :: spans) = mapCells f [span] ++ mapCells f spans := by simp [mapCells]
    rw [hcons, Cell.marks_append, List.mem_append] at h
    cases span with
    | text s =>
      rcases h with h | h
      · exact .inr ⟨s, by simpa [mapCells] using h⟩
      · exact ih h
    | mark m' =>
      rcases h with h | h
      · exact .inl (List.mem_singleton.1 h ▸ List.mem_cons_self)
      · rcases ih h with h | h
        · exact .inl (List.mem_cons_of_mem m' h)
        · exact .inr h

theorem walk_mapText {f : Text → List Cell} (hf : ∀ s, ∀ m ∈ Cell.marks (f s), m.Whole) (spans : List Span)
    (σ : List Opening) : Cell.walk σ (toCells (mapText f spans)) = Cell.walk σ (toCells spans) := by
  rw [toCells_mapText]
  induction spans generalizing σ with
  | nil => rfl
  | cons span spans ih =>
    cases span with
    | text s =>
      have hs : mapCells f (.text s :: spans) = f s ++ mapCells f spans := rfl
      rw [hs, toCells_text, Cell.walk_append, Cell.walk_append, Cell.walk_inert fun m hm => (hf s m hm).inert,
        Cell.walk_inert (by simp)]
      exact ih σ
    | mark m =>
      have hm : mapCells f (.mark m :: spans) = .mark m :: mapCells f spans := rfl
      rw [hm, toCells_mark, Cell.walk, Cell.walk]
      congr
      funext τ
      exact ih τ

/-- What the spans open they close again, innermost first, and the markup of
their marks is sound. -/
structure Nests (spans : List Span) : Prop where
  walk : Cell.walk [] (toCells spans) = some []
  sound : ∀ m ∈ marks spans, m.Sound

theorem Nests.balanced {spans : List Span} (h : Nests spans) : Markup.Balanced (render spans) :=
  nested_render h.walk h.sound

theorem Nests.mapText {f : Text → List Cell} {spans : List Span} (h : Nests spans)
    (hf : ∀ s, ∀ m ∈ Cell.marks (f s), m.Whole) : Nests (mapText f spans) := by
  refine ⟨(walk_mapText hf spans []).trans h.walk, fun m hm => ?_⟩
  rcases mem_marks_mapText hm with hm | ⟨s, hm⟩
  · exact h.sound m hm
  · exact (hf s m hm).sound

end Span
/-! ### Links and emphasis -/

theorem Link.nests_resolve (nextScope : Nat) {spans : List Span} (h : ∀ m ∈ Span.marks spans, m.Whole) :
    Span.Nests (Emphasis.resolve (resolve nextScope spans).1).1 := by
  have hplain : ∀ m ∈ Span.marks spans, m.IsInert ∧ m.Sound ∧ ∀ e, m ≠ .emphasisOpen e := by
    intro m hm
    refine ⟨(h m hm).inert, (h m hm).sound, ?_⟩
    rintro e rfl
    cases (h _ hm).inert.1
  obtain ⟨hwalk, hopens, hmarks⟩ := resolve_nests (P := fun m => m.Sound ∧ ∀ e, m ≠ .emphasisOpen e)
    (fun href => ⟨Mark.sound_bareLink href, nofun⟩) (fun _ _ => ⟨Mark.sound_of_opening rfl, nofun⟩)
    (fun _ => ⟨Mark.sound_of_closing rfl, nofun⟩) nextScope hplain
  refine ⟨Emphasis.resolve_walk hwalk hopens fun m hm => (hmarks m hm).2, fun m hm => ?_⟩
  rcases Emphasis.mem_marks_resolve hm with hm | ⟨e, rfl | rfl⟩
  · exact (hmarks m hm).1
  · exact Mark.sound_of_opening rfl
  · exact Mark.sound_of_closing rfl

/-! ### A whole text -/

namespace Inline

/-- Neither an angle bracket nor a caret before a bracket. -/
def IsPlain (s : Text) : Prop := '<' ∉ s ∧ ¬['^', '['] <:+: s

variable (ctx : Context) {body : NoteBody} {s : Text}

/-- A text after its citations have become marks. -/
def cited (s : Text) : List Span :=
  Span.mapText (Citation.resolve ctx.citations (CrossReference.isTarget ctx.kinds))
    (shielded ctx (fun _ => (none, [])) s).spans

/-- The definitions that a text asks for. -/
def asked (s : Text) : List Text :=
  (cited ctx s).flatMap fun
    | .text t => Footnote.definitionsOf ctx.footnotes (Footnote.pieces t)
    | .mark _ => []

/-- The texts that are transformed for a text, where notes may be some levels
deep: the text itself, and those for the definitions it asks for. -/
inductive Hands : Nat → Text → Text → Prop
  | self (depth : Nat) (s : Text) : Hands depth s s
  | note {depth : Nat} {s note t : Text} : note ∈ asked ctx s → Hands depth note t → Hands (depth + 1) s t

variable {ctx}

theorem cited_rewrites (hpolicy : ctx.citations = .xref) (s : Text) :
    Rewrites (fun used m => Shields used m ∨ ∃ refs, m = .references refs) dropsNothing (Span.cellsOf s)
      (Span.toCells (cited ctx s)) := by
  have hcited := Rewrites.mapText (shielded ctx (fun _ => (none, [])) s).spans
    fun t _ => Citation.resolve_rewrites (CrossReference.isTarget ctx.kinds) t
  rw [← hpolicy] at hcited
  exact (shielded_rewrites ctx _ s).trans hcited

theorem cited_eq (s : Text) : Span.mapText (Citation.resolve ctx.citations (CrossReference.isTarget ctx.kinds))
    (shielded ctx body s).spans = cited ctx s := by
  rw [cited, shielded_spans, shielded_spans]

/-- Before the rule for links all marks are whole. -/
theorem notes_whole (hpolicy : ctx.citations = .xref) (hs : IsPlain s)
    (hbody : ∀ note ∈ asked ctx s, ∀ xml, (body note).1 = some xml → Markup.Balanced xml) :
    ∀ m ∈ Span.marks ((shielded ctx body s).notes ctx body).spans, m.Whole := by
  have hcited := cited_rewrites hpolicy s
  have hmarked := Rewrites.mapText (cited ctx s) fun t ht =>
    Footnote.resolve_rewrites t fun note hnote =>
      hbody note (List.mem_flatMap.2 ⟨_, ht, hnote⟩)
  have happart : ¬[Cell.char '^', .char '['] <:+:
      Span.toCells (Span.mapText (Footnote.resolve ctx.footnotes body) (cited ctx s)) := by
    refine hmarked.apart ?_ (hcited.apart nofun ?_)
    · rintro used ⟨id, rfl⟩
      rfl
    · intro hin
      obtain ⟨pair, hpair, he⟩ := List.infix_map_iff.1 hin
      have heq : ['^', '['] = pair := (List.map_inj_right fun _ _ => Cell.char.inj).1 he
      exact hs.2 (heq ▸ hpair)
  intro m hm
  rw [notes_spans, cited_eq] at hm
  rcases Span.mem_marks_mapText hm with hm | ⟨t, hm⟩
  · rw [← Span.marks_toCells, Note.toCells_resolve _ happart] at hm
    rcases hmarked.mem_marks m hm with hm | ⟨used, ⟨xml, hxml, rfl⟩, _⟩
    · rcases hcited.mem_marks m hm with hm | ⟨used, hu | ⟨refs, rfl⟩, hc⟩
      · simp at hm
      · refine hu.whole fun hlt => hs.1 ?_
        simpa [Span.cellsOf] using hc '<' hlt
      · exact Mark.whole_references refs
    · exact ⟨⟨rfl, rfl⟩, Mark.sound_footnote hxml⟩
  · obtain ⟨levels, rfl⟩ := Index.marks_protect t m hm
    exact Mark.whole_index levels

/-- The markup of a text is balanced, if that of the notes it asks for is. -/
theorem balanced_run (hpolicy : ctx.citations = .xref) (hs : IsPlain s)
    (hbody : ∀ note ∈ asked ctx s, ∀ xml, (body note).1 = some xml → Markup.Balanced xml) :
    Markup.Balanced (Span.render (run ctx body s).spans) := by
  have hlinks := Link.nests_resolve ((shielded ctx body s).notes ctx body).nextScope
    (notes_whole hpolicy hs hbody)
  have references {m : Mark} (h : ∃ refs, m = .references refs) : m.Whole := by
    obtain ⟨refs, rfl⟩ := h
    exact Mark.whole_references refs
  rw [run_eq]
  simp only [laterRules, List.foldl_cons, List.foldl_nil, apply, Run.links, Run.emphasis, Run.mapText]
  refine (((hlinks.mapText fun t m hm => references (CrossReference.marks_bracketed ctx.kinds t m hm)).mapText
    fun t m hm => references (CrossReference.marks_bare ctx.kinds t m hm)).mapText fun t m hm => ?_).balanced
  rw [Escape.marks_resolve] at hm
  cases hm

theorem balanced_transformWithin (hpolicy : ctx.citations = .xref) : ∀ (depth : Nat) {s : Text},
    (∀ t, Hands ctx depth s t → IsPlain t) → Markup.Balanced (transformWithin ctx depth s).1
  | 0, s, h => by
    rw [transformWithin_eq]
    exact balanced_run hpolicy (h s (.self 0 s)) fun _ _ _ hxml => by cases hxml
  | depth + 1, s, h => by
    rw [transformWithin_eq]
    refine balanced_run hpolicy (h s (.self _ s)) fun note hnote xml hxml => ?_
    cases hxml
    exact balanced_transformWithin hpolicy depth fun t ht => h t (.note hnote ht)

theorem balanced_transform (hpolicy : ctx.citations = .xref) (h : ∀ t, Hands ctx noteDepth s t → IsPlain t) :
    Markup.Balanced (transform ctx s).1 := balanced_transformWithin hpolicy noteDepth h

end Inline
end QuartoPretext
