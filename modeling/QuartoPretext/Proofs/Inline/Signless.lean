/-
# Text without signs

Every rule after the one for markup looks for certain characters. On text that
holds none of them between its elements these rules find nothing: the text comes
out escaped, the elements with it, without a warning. And what comes out is
divided by the same elements, so transforming it again changes nothing.

Key definitions: `Inline.signs`, `Inline.Signless`.
Key theorems: `Inline.apply_signless`, `Inline.transform_division`,
`Inline.leftmost_shown`, `Inline.transform_signless`.
-/
import QuartoPretext.Proofs.Inline.Division
import QuartoPretext.Proofs.Inline.Notes
import QuartoPretext.Proofs.Inline.Protected
import QuartoPretext.Proofs.Inline.Tagged

namespace QuartoPretext

theorem Span.mem_of_text {s : Text} {c : Char} (hc : c ∈ s) : ∀ {spans : List Span}, .text s ∈ spans →
    .char c ∈ Span.toCells spans
  | span :: spans, h => by
    rcases List.mem_cons.1 h with rfl | h
    · exact List.mem_append_left _ (List.mem_map_of_mem hc)
    · exact List.mem_append_right _ (mem_of_text hc h)

namespace Inline

/-- The characters that the rules after the one for markup look for. -/
def signs : Text := ['$', '\x60', '[', '*', '_', '@', '\\']

def Signless (s : Text) : Prop := ∀ c ∈ s, c ∉ signs

/-- No sign among the characters of cells. -/
def SignlessCells (cs : List Cell) : Prop := ∀ c, .char c ∈ cs → c ∉ signs

variable {s t : Text} {c : Char} {cs : List Cell}

theorem Signless.head (h : Signless (c :: s)) : c ∉ signs := h c List.mem_cons_self

theorem Signless.suffix (h : Signless s) (ht : t <:+ s) : Signless t := fun c hc => h c (ht.subset hc)

/-- A recogniser that needs a sign finds nothing. -/
theorem scan_signless {α : Type} {literal : Char → α} {find : Text → Option (List α × Text)} (hs : Signless s)
    (hfind : ∀ t, Signless t → find t = none) : Text.scan literal find s = s.map literal :=
  Text.scan_eq_map fun t ht => hfind t (hs.suffix ht)

/-- A rule that leaves texts without signs leaves spans without signs. -/
theorem mapText_signless {f : Text → List Cell} (hf : ∀ s, Signless s → f s = Span.cellsOf s)
    (hcs : SignlessCells cs) : Span.mapText f (Span.ofCells cs) = Span.ofCells cs := by
  have hspans : ∀ spans : List Span, (∀ s, .text s ∈ spans → Signless s) →
      Span.mapCells f spans = Span.toCells spans := by
    intro spans
    induction spans with
    | nil => exact fun _ => rfl
    | cons span spans ih =>
      intro h
      have ih := ih fun s hs => h s (List.mem_cons_of_mem span hs)
      cases span with
      | text s =>
        show f s ++ Span.mapCells f spans = _
        rw [hf s (h s List.mem_cons_self), ih, Span.toCells_text]
      | mark m =>
        show Cell.mark m :: Span.mapCells f spans = _
        rw [ih, Span.toCells_mark]
  show Span.ofCells (Span.mapCells f (Span.ofCells cs)) = _
  rw [hspans, Span.toCells_ofCells]
  intro s hs c hc
  have hmem := Span.mem_of_text hc hs
  rw [Span.toCells_ofCells] at hmem
  exact hcs c hmem

theorem warn_signless {f : Text → List Cause} (hf : ∀ s, Signless s → f s = []) (hcs : SignlessCells cs) {r : Run}
    (hr : r.spans = Span.ofCells cs) : (r.warn f).causes = r.causes := by
  refine List.append_right_eq_self.2 (List.flatMap_eq_nil_iff.2 fun span hspan => ?_)
  cases span with
  | text s =>
    refine hf s fun c hc => hcs c ?_
    have hmem := Span.mem_of_text hc hspan
    rwa [hr, Span.toCells_ofCells] at hmem
  | mark m => rfl

/-! ### What the rules find -/

theorem math_piece?_signless (h : Signless t) : Math.piece? t = none := by
  unfold Math.piece?
  split
  · exact absurd (by decide) h.head
  · exact absurd (by decide) h.head
  · exact absurd (by decide) h.head
  · rfl

theorem math_pieces_signless (hs : Signless s) : Math.pieces s = Math.chars s :=
  scan_signless hs fun _ => math_piece?_signless

theorem math_protect_signless (hs : Signless s) : Math.protect s = Span.cellsOf s := by
  rw [Math.protect, math_pieces_signless hs]
  exact Math.cells_chars s

theorem math_warnings_signless (hs : Signless s) : Math.warnings s = [] := by
  rw [Math.warnings, math_pieces_signless hs, Math.chars, List.filterMap_map]
  exact List.filterMap_eq_nil_iff.2 fun _ _ => rfl

theorem code_protect_signless (hs : Signless s) : Code.protect s = Span.cellsOf s := by
  refine scan_signless hs fun t ht => ?_
  cases t with
  | nil => rfl
  | cons c t =>
    have hc : Code.isTick c = false := by
      refine Bool.eq_false_iff.2 fun htick => ht.head ?_
      rw [beq_iff_eq.1 htick]
      decide
    simp [Code.find?, hc]

theorem dropPrefix?_signless {d : Char} (hd : d ∈ signs) (mark : Text) (ht : Signless t) :
    Text.dropPrefix? (d :: mark) t = none := by
  cases t with
  | nil => rfl
  | cons c t =>
    rw [Text.dropPrefix?, if_neg]
    intro h
    exact ht.head (beq_iff_eq.1 h ▸ hd)

theorem citation_resolve_signless (policy : CitationPolicy) (isTarget : Text → Bool) (hs : Signless s) :
    Citation.resolve policy isTarget s = Span.cellsOf s := by
  refine scan_signless hs fun t ht => ?_
  have hsuffix : Text.trimStart t <:+ t := List.dropWhile_suffix _
  have hfind : Citation.find? (Text.trimStart t) = none := by
    rw [Citation.find?, dropPrefix?_signless (by decide) [] (ht.suffix hsuffix)]
    rfl
  simp only [hfind]

theorem footnote_pieces_signless (hs : Signless s) : Footnote.pieces s = s.map Footnote.Piece.char := by
  refine scan_signless hs fun t ht => ?_
  rw [Footnote.marker?, dropPrefix?_signless (by decide) _ ht]
  rfl

theorem footnote_resolve_signless (table : Footnotes) (body : NoteBody) (hs : Signless s) :
    Footnote.resolve table body s = Span.cellsOf s := by
  rw [Footnote.resolve, footnote_pieces_signless hs, List.flatMap_map]
  exact List.map_eq_flatMap.symm

theorem footnote_warnings_signless (table : Footnotes) (body : NoteBody) (hs : Signless s) :
    Footnote.warnings table body s = [] := by
  rw [Footnote.warnings, footnote_pieces_signless hs, List.flatMap_map]
  exact List.flatMap_eq_nil_iff.2 fun _ _ => rfl

theorem index_protect_signless (hs : Signless s) : Index.protect s = Span.cellsOf s := by
  refine scan_signless hs fun t ht => ?_
  have hcommand : "\\index\x7b".toList = '\\' :: "index\x7b".toList := by decide
  rw [Index.find?, hcommand, dropPrefix?_signless (by decide) _ ht]
  rfl

theorem reference?_signless (kinds : List Text) (ht : Signless t) : CrossReference.reference? kinds t = none := by
  have hsuffix : (if (t.head? == some '-') = true then t.drop 1 else t) <:+ t := by
    split
    · exact List.drop_suffix 1 t
    · exact List.suffix_refl t
  unfold CrossReference.reference?
  simp only
  split
  · next rest h =>
    rw [h] at hsuffix
    exact absurd (by decide) (ht.suffix hsuffix).head
  · rfl

theorem bracketed?_signless (kinds : List Text) (ht : Signless t) : CrossReference.bracketed? kinds t = none := by
  unfold CrossReference.bracketed?
  split
  · exact absurd (by decide) ht.head
  · rfl

theorem bare?_signless (kinds : List Text) (ht : Signless t) : CrossReference.bare? kinds t = none := by
  unfold CrossReference.bare?
  split
  · rfl
  · next c rest =>
    split
    · rfl
    · rw [reference?_signless kinds (ht.suffix (List.suffix_cons c rest))]
      rfl

theorem crossReference_bare_signless (kinds : List Text) (hs : Signless s) :
    CrossReference.bare kinds s = Span.cellsOf s := by
  rw [CrossReference.bare, reference?_signless kinds hs]
  exact scan_signless hs fun _ => bare?_signless kinds

theorem layout?_signless (ht : Signless t) : Escape.layout? t = none := by
  have hnames : "\\hspace".toList = '\\' :: "hspace".toList ∧ "\\vspace".toList = '\\' :: "vspace".toList := by
    decide
  have hspace : Layout.space? t = none := by
    rw [Layout.space?, hnames.1, hnames.2, dropPrefix?_signless (by decide) _ ht,
      dropPrefix?_signless (by decide) _ ht]
    rfl
  have hword : Layout.word? t = none := by
    rw [Layout.word?, dropPrefix?_signless (by decide) _ ht]
    rfl
  rw [Escape.layout?, hspace, hword]
  rfl

theorem unescape_signless : ∀ {s : Text}, Signless s → Escape.unescape s = s
  | [], _ | [_], _ => rfl
  | c :: d :: s, h => by
    have hc : c ≠ '\\' := fun he => h.head (he ▸ by decide)
    rw [Escape.unescape, if_neg (by simp [hc]), unescape_signless (h.suffix (List.suffix_cons c _))]

theorem escape_resolve_signless (hs : Signless s) : Escape.resolve s = Span.cellsOf s := by
  have hlayout : Escape.dropLayout s = s := by
    have hfind (t : Text) (ht : Signless t) : (Escape.layout? t).map (fun rest => (([] : Text), rest)) = none := by
      rw [layout?_signless ht]
      rfl
    rw [Escape.dropLayout, scan_signless hs hfind, List.map_id]
  rw [Escape.resolve, hlayout, unescape_signless hs]

/-! ### Rules for cells -/

theorem not_mem_of_signless (hcs : SignlessCells cs) (hc : c ∈ signs) : .char c ∉ cs := fun h => hcs c h hc

theorem note_resolve_signless (nextScope : Nat) (hcs : SignlessCells cs) :
    (Note.resolve nextScope (Span.ofCells cs)).1 = Span.ofCells cs := by
  have hcaret : ¬[Cell.char '^', .char '['] <:+: Span.toCells (Span.ofCells cs) := by
    rw [Span.toCells_ofCells]
    intro h
    exact not_mem_of_signless hcs (by decide) (h.subset (List.mem_cons_of_mem _ List.mem_cons_self))
  have hcells := Note.toCells_resolve nextScope hcaret
  simp only [Note.resolve, Span.toCells_ofCells] at hcells ⊢
  rw [hcells]

/-- Without opening brackets there are no links. -/
theorem link_cells_read (bang escaped : Bool) (b : Bracketing) (cs : List Cell) (hb : b.pending = [])
    (hcs : .char '[' ∉ cs) : (Link.read bang escaped b cs).cells = b.cells ++ cs := by
  have snoc (b : Bracketing) (c : Cell) (cs : List Cell) : b.cells ++ c :: cs = (b.push c).cells ++ cs := by
    rw [Bracketing.cells_push, List.append_assoc]
    rfl
  fun_induction Link.read bang escaped b cs with
  | case1 b => rw [List.append_nil]
  | case2 bang escaped b c rest hc =>
    rw [Cell.eq_of_isChar (Bool.and_eq_true_iff.1 hc).1] at hcs
    exact absurd List.mem_cons_self hcs
  | case3 bang escaped b c rest _ hc hp ih =>
    have hshut : b.shut = b.push (.char ']') := by rw [Bracketing.shut, hp]
    rw [hshut] at ih
    rw [Cell.eq_of_isChar (Bool.and_eq_true_iff.1 hc).1, snoc, hshut]
    exact ih hp fun h => hcs (List.mem_cons_of_mem c h)
  | case4 bang escaped b c rest _ _ br more hp | case5 bang escaped b c rest _ _ br more hp =>
    rw [hb] at hp
    cases hp
  | case6 bang escaped b c rest _ _ ih =>
    rw [snoc]
    exact ih hb fun h => hcs (List.mem_cons_of_mem c h)

theorem link_resolve_signless (nextScope : Nat) (hcs : SignlessCells cs) :
    (Link.resolve nextScope (Span.ofCells cs)).1 = Span.ofCells cs := by
  rw [Link.resolve, Span.toCells_ofCells,
    link_cells_read false false (.start nextScope) cs rfl (not_mem_of_signless hcs (by decide))]
  rfl

theorem emphasis_nodes_signless (before : Option Cell) (scopes : List Nat) (cs : List Cell) (hcs : SignlessCells cs) :
    Emphasis.nodes before scopes cs = cs.map .cell := by
  fun_induction Emphasis.nodes before scopes cs with
  | case1 => rfl
  | case2 before scopes m rest ih =>
    rw [ih fun c hc => hcs c (List.mem_cons_of_mem _ hc)]
    rfl
  | case3 before scopes c rest hc | case4 before scopes c rest hc =>
    refine absurd List.mem_cons_self (not_mem_of_signless hcs (c := c) ?_)
    simp only [Emphasis.isDelimiter, Bool.or_eq_true, beq_iff_eq] at hc
    rcases hc with rfl | rfl <;> decide
  | case5 before scopes c rest _ ih =>
    rw [ih fun c hc => hcs c (List.mem_cons_of_mem _ hc)]
    rfl

theorem emphasis_place (cs : List Cell) : Emphasis.place (cs.map .cell) [] = cs := by
  induction cs with
  | nil => rfl
  | cons c cs ih => rw [List.map_cons, Emphasis.place, ih]

theorem emphasis_resolve_signless (hcs : SignlessCells cs) :
    Emphasis.resolve (Span.ofCells cs) = (Span.ofCells cs, []) := by
  have hruns : Emphasis.runs (cs.map .cell) = [] := by
    rw [Emphasis.runs, List.filterMap_map]
    exact List.filterMap_eq_nil_iff.2 fun _ _ => rfl
  rw [Emphasis.resolve, Span.toCells_ofCells, emphasis_nodes_signless none [] cs hcs, hruns]
  show (Span.ofCells (Emphasis.place (cs.map .cell) []), _) = _
  rw [emphasis_place]
  rfl

/-! ### All rules -/

variable (ctx : Context) (body : NoteBody)

/-- No rule but the one for markup does anything where there are no signs. -/
theorem apply_signless (hcs : SignlessCells cs) {rule : InlineRule} (hrule : rule ≠ .passthrough) {r : Run}
    (hr : r.spans = Span.ofCells cs) :
    (apply ctx body r rule).spans = Span.ofCells cs ∧ (apply ctx body r rule).causes = r.causes := by
  cases rule with
  | passthrough => exact absurd rfl hrule
  | math =>
    refine ⟨?_, warn_signless (fun _ => math_warnings_signless) hcs hr⟩
    exact hr ▸ mapText_signless (fun _ => math_protect_signless) hcs
  | code => exact ⟨hr ▸ mapText_signless (fun _ => code_protect_signless) hcs, rfl⟩
  | notes =>
    have hcited := mapText_signless
      (fun _ => citation_resolve_signless ctx.citations (CrossReference.isTarget ctx.kinds)) hcs
    have hmarked := mapText_signless (fun _ => footnote_resolve_signless ctx.footnotes body) hcs
    constructor
    · show (r.notes ctx body).spans = _
      rw [notes_spans, hr, hcited, hmarked, note_resolve_signless _ hcs]
      exact mapText_signless (fun _ => index_protect_signless) hcs
    · exact warn_signless (fun _ => footnote_warnings_signless ctx.footnotes body) hcs (hr ▸ hcited)
  | links => exact ⟨hr ▸ link_resolve_signless r.nextScope hcs, rfl⟩
  | emphasis =>
    show (Emphasis.resolve r.spans).1 = _ ∧ r.causes ++ (Emphasis.resolve r.spans).2 = r.causes
    rw [hr, emphasis_resolve_signless hcs]
    exact ⟨rfl, List.append_nil _⟩
  | crossReferences =>
    have hbracketed : Span.mapText (Text.scan Cell.char (CrossReference.bracketed? ctx.kinds)) (Span.ofCells cs) =
        Span.ofCells cs := mapText_signless (fun s hs => scan_signless hs fun _ => bracketed?_signless ctx.kinds) hcs
    refine ⟨?_, rfl⟩
    show CrossReference.resolve ctx.kinds r.spans = _
    rw [CrossReference.resolve, hr, hbracketed]
    exact mapText_signless (fun _ => crossReference_bare_signless ctx.kinds) hcs
  | escapes => exact ⟨hr ▸ mapText_signless (fun _ => escape_resolve_signless) hcs, rfl⟩

theorem foldl_signless (hcs : SignlessCells cs) : ∀ {rules : List InlineRule}, .passthrough ∉ rules →
    ∀ {r : Run}, r.spans = Span.ofCells cs →
      (rules.foldl (apply ctx body) r).spans = Span.ofCells cs ∧ (rules.foldl (apply ctx body) r).causes = r.causes
  | [], _, _, hr => ⟨hr, rfl⟩
  | rule :: rules, h, r, hr => by
    obtain ⟨hspans, hcauses⟩ := apply_signless ctx body hcs (fun he => h (he ▸ List.mem_cons_self)) hr
    obtain ⟨hspans', hcauses'⟩ := foldl_signless hcs (fun hmem => h (List.mem_cons_of_mem rule hmem)) hspans
    exact ⟨hspans', hcauses'.trans hcauses⟩

variable {d : Text.Division}

/-- The cells of a text: its elements as marks, and the characters between. -/
def divisionCells (d : Text.Division) : List Cell :=
  d.map Span.cellsOf fun f => [.mark (.fragment (Fragment.escape f))]

theorem protect_division (hd : d.Leftmost Fragment.IsFragment) : Fragment.protect d.text = divisionCells d :=
  Text.Division.scan_text Fragment.recognises_find (fun _ => Fragment.isFragment_ne_nil) hd

theorem signless_divisionCells (h : ∀ t ∈ d.between, Signless t) : SignlessCells (divisionCells d) := by
  refine Text.Division.map_of_append (Q := SignlessCells) ?_ ?_ ?_
  · exact fun hs ht c hc => (List.mem_append.1 hc).elim (hs c) (ht c)
  · intro t ht c hc
    obtain ⟨e, he, heq⟩ := List.mem_map.1 hc
    cases heq
    exact h t ht c he
  · intro m _ c hc
    cases List.mem_singleton.1 hc

theorem render_divisionCells (d : Text.Division) :
    Span.render (Span.ofCells (divisionCells d)) = d.map Markup.escapeText Fragment.escape := by
  rw [divisionCells, Span.ofCells_division, Span.render, Text.Division.flatMap_map]
  refine Text.Division.map_congr (fun t _ => ?_) fun m _ => List.append_nil _
  unfold Span.ofText
  split
  · next h =>
    rw [h, Markup.escapeText]
    rfl
  · exact List.append_nil _

/-- **Text without signs passes through.** Its elements and what stands between
them are escaped, and there is nothing to warn of. -/
theorem transform_division (hd : d.Leftmost Fragment.IsFragment) (h : ∀ t ∈ d.between, Signless t) :
    transform ctx d.text = (d.map Markup.escapeText Fragment.escape, []) := by
  have hfirst : apply ctx (noteBody ctx noteDepth) (.start d.text) .passthrough =
      ⟨Span.ofCells (divisionCells d), 0, []⟩ := by
    show Run.mk (Span.mapText Fragment.protect (Span.ofCells (Span.cellsOf d.text))) 0 [] = _
    have hnil : Fragment.protect [] = [] := Text.scan_nil
    rw [Span.mapText_cellsOf hnil, protect_division hd]
  have hrules : InlineRule.all = .passthrough :: .math :: .code :: laterRules := rfl
  have hlater : .passthrough ∉ .math :: .code :: laterRules := by decide
  obtain ⟨hspans, hcauses⟩ := foldl_signless ctx (noteBody ctx noteDepth) (signless_divisionCells h) hlater
    (r := ⟨Span.ofCells (divisionCells d), 0, []⟩) rfl
  rw [transform, transformWithin_run, run, hrules, List.foldl_cons, hfirst, hspans, hcauses, render_divisionCells]

/-- What comes out is divided by the same elements. -/
theorem leftmost_shown (hd : d.Leftmost Fragment.IsFragment) :
    (d.change Markup.escapeText Fragment.escape).Leftmost Fragment.IsFragment := by
  refine Text.Division.leftmost_of_not_mem (fun _ => Fragment.isFragment_head) ?_ ?_
  · rw [Text.Division.found_change]
    intro m hm
    obtain ⟨f, hf, rfl⟩ := List.mem_map.1 hm
    exact Fragment.isFragment_escape (hd.found f hf)
  · rw [Text.Division.between_change]
    intro t ht hlt
    obtain ⟨u, _, rfl⟩ := List.mem_map.1 ht
    exact ((Markup.settled_escapeText u).angleless _ hlt).1 rfl

theorem signless_shown (h : ∀ t ∈ d.between, Signless t) :
    ∀ t ∈ (d.change Markup.escapeText Fragment.escape).between, Signless t := by
  rw [Text.Division.between_change]
  intro t ht c hc
  obtain ⟨u, hu, rfl⟩ := List.mem_map.1 ht
  have href : ∀ c ∈ "&ltgamp;".toList, c ∉ signs := by decide
  exact (Markup.mem_escapeText hc).elim (h u hu c) (href c)

/-- **Without signs, transforming again changes nothing.** Where the text between
the elements of a source holds no sign, the result is the escaped elements and the
escaped text between them, without a warning, and it is its own result. -/
theorem transform_signless (hd : d.Leftmost Fragment.IsFragment) (h : ∀ t ∈ d.between, Signless t) :
    transform ctx d.text = (d.map Markup.escapeText Fragment.escape, []) ∧
    transform ctx (transform ctx d.text).1 = transform ctx d.text := by
  have hshown := transform_division ctx (leftmost_shown hd) (signless_shown h)
  rw [transform_division ctx hd h]
  refine ⟨rfl, ?_⟩
  rw [Text.Division.map_change, Text.Division.text_change] at hshown
  rw [hshown]
  congr 1
  refine Text.Division.map_congr (fun t _ => ?_) fun m _ => Fragment.escape_idempotent m
  exact (Markup.settled_escapeText t).escapeText_eq

/-- Elements with signs, an unknown tag, a tag without its end and a reference. -/
theorem transform_signless_broken :
    let d : Text.Division := .next "A & <x> ".toList "<em>b $x$ & <c a='*'>*</em>".toList
      (.next " &amp; ".toList "<m\t/>".toList (.last " <url>".toList))
    let shown := "A &amp; &lt;x&gt; <em>b $x$ &amp; <c a='*'>*</em> &amp; <m\t/> &lt;url&gt;".toList
    d.Leftmost Fragment.IsFragment ∧ (∀ t ∈ d.between, Signless t) ∧
      transform ⟨.xref, [], .empty⟩ d.text = (shown, []) ∧ (transform ⟨.xref, [], .empty⟩ shown).1 = shown := by
  intro d shown
  have hd : d.Leftmost Fragment.IsFragment := by decide +kernel
  have hsignless : ∀ t ∈ d.between, Signless t := by
    unfold Signless
    decide +kernel
  have hshown : d.map Markup.escapeText Fragment.escape = shown := by decide +kernel
  obtain ⟨h, hagain⟩ := transform_signless ⟨.xref, [], .empty⟩ hd hsignless
  rw [h, hshown] at hagain
  exact ⟨hd, hsignless, hshown ▸ h, congrArg Prod.fst hagain⟩

end Inline
end QuartoPretext
