/-
# Transforming a result again

Every ampersand of a result starts an entity reference: text is escaped, and so
is whatever a mark bears. So a result without signs comes out of a second run as
it is, unless angle brackets are escaped there: those that belong to no tag of an
element that is found. An element ends at the first end tag of its name, so one
within another of the same name is such a case.

Key definitions: `Inline.IsCovered`.
Key theorems: `Markup.Nested.referenced`, `Inline.referenced_transform`,
`Inline.transform_again_iff`.
-/
import QuartoPretext.Proofs.Inline.Marks
import QuartoPretext.Proofs.Inline.Signless

namespace QuartoPretext

/-! ### References in markup -/

namespace Markup

theorem isName_ne_amp {name : Text} (h : isName name) : '&' ∉ name := by
  intro hmem
  unfold isName at h
  split at h
  · cases hmem
  · rw [Bool.and_eq_true, List.all_eq_true] at h
    rcases List.mem_cons.1 hmem with rfl | hmem
    · exact absurd h.1 (by decide)
    · exact absurd (h.2 _ hmem) (by decide)

theorem IsValue.referenced {s : Text} (h : IsValue s) : Referenced s := by
  induction h with
  | nil => exact .nil
  | char _ hamp _ _ ih => exact .char hamp ih
  | reference hn _ ih => exact .reference hn ih

theorem IsAttributes.referenced {s : Text} (h : IsAttributes s) : Referenced s := by
  induction h with
  | nil => exact .nil
  | @cons name value s hn hv _ ih =>
    have hname := Referenced.of_plain (isName_ne_amp hn)
    have hrest : Referenced ('=' :: '"' :: value ++ '"' :: s) :=
      .char (by decide) (.char (by decide) (hv.referenced.append (.char (by decide) ih)))
    have hall : Referenced (' ' :: (name ++ ('=' :: '"' :: value ++ '"' :: s))) :=
      .char (by decide) (hname.append hrest)
    simpa using hall

/-- In nested markup every ampersand starts a reference. -/
theorem Nested.referenced {s : Text} {before after : List Text} (h : Nested before s after) : Referenced s := by
  have tag {name s t : Text} (hn : isName name) (hs : Referenced s) (ht : Referenced t) :
      Referenced ('<' :: (name ++ (s ++ '>' :: t))) :=
    .char (by decide) ((Referenced.of_plain (isName_ne_amp hn)).append (hs.append (.char (by decide) ht)))
  have slash : Referenced ['/'] := .char (by decide) .nil
  induction h with
  | nil => exact .nil
  | char _ hamp _ ih => exact .char hamp ih
  | reference hn _ ih => exact .reference hn ih
  | startTag hn ha _ ih => simpa using tag hn ha.referenced ih
  | emptyTag hn ha _ ih => simpa using tag hn (ha.referenced.append slash) ih
  | endTag hn _ ih => simpa using Referenced.char (c := '<') (by decide) (.char (by decide)
      ((Referenced.of_plain (isName_ne_amp hn)).append (.char (by decide) ih)))

end Markup

/-! ### References in a result -/

theorem Mark.Sound.refers {m : Mark} (h : m.Sound) : Markup.Referenced m.xml := by
  cases hopen : m.opening? with
  | some o => exact (nested_opening hopen []).referenced
  | none =>
    cases hclose : m.closing? with
    | some o => exact (nested_closing hclose []).referenced
    | none => exact (h ⟨hopen, hclose⟩).referenced

theorem Mark.refers_of_isOwn {m : Mark} (h : m.isOwn) : Markup.Referenced m.xml := by
  refine Sound.refers ?_
  cases m with
  | fragment _ | footnote _ => cases h
  | math tex => exact sound_math tex
  | displayMath tex => exact sound_displayMath tex
  | code content => exact sound_code content
  | references refs => exact sound_references refs
  | index levels => exact sound_index levels
  | bareLink href => exact sound_bareLink href
  | linkOpen _ _ | noteOpen _ | emphasisOpen _ => exact sound_of_opening rfl
  | linkClose _ | noteClose _ | emphasisClose _ => exact sound_of_closing rfl

theorem Mark.refers_footnote {xml : Text} (h : Markup.Referenced xml) : Markup.Referenced (footnote xml).xml := by
  have htag (name : Text) (hn : '&' ∉ name) : Markup.Referenced (startTag name) :=
    Fragment.referenced_startTag (.of_plain hn)
  exact ((htag "fn".toList (by decide)).append h).append (htag "/fn".toList (by decide))

namespace Inline

variable (ctx : Context)

/-- Every ampersand of a result starts an entity reference. -/
theorem referenced_transform (s : Text) : Markup.Referenced (transform ctx s).1 :=
  transform_induct ctx .nil (fun _ _ => .append) (fun t => (Markup.settled_escapeText t).referenced)
    Fragment.referenced_escape (fun _ => Mark.refers_footnote) (fun _ => Mark.refers_of_isOwn) s

/-! ### The second run -/

/-- Text in which every angle bracket belongs to a tag of a known name, and every
such tag to an element that is found. -/
def IsCovered (s : Text) : Prop :=
  ∃ d : Text.Division, d.text = s ∧ (∀ f ∈ d.found, Fragment.IsFragment f ∧ Fragment.IsTagged f) ∧
    ∀ t ∈ d.between, Markup.Angleless t

variable {ctx} {s : Text}

theorem isCovered_of_transform (h : Signless s) (he : (transform ctx s).1 = s) : IsCovered s := by
  obtain ⟨d, rfl, hd⟩ := Text.Division.exists_leftmost (fun _ => Fragment.isFragment_ne_nil) s
  have hbetween : ∀ t ∈ d.between, Signless t := fun t ht c hc =>
    h c ((Text.Division.infix_of_mem_between ht).subset hc)
  rw [transform_division ctx hd hbetween] at he
  refine ⟨d.change Markup.escapeText Fragment.escape, (Text.Division.text_change d).trans he, ?_, ?_⟩
  · rw [Text.Division.found_change]
    intro m hm
    obtain ⟨f, hf, rfl⟩ := List.mem_map.1 hm
    exact ⟨Fragment.isFragment_escape (hd.found f hf), Fragment.isTagged_escape f⟩
  · rw [Text.Division.between_change]
    intro t ht
    obtain ⟨u, _, rfl⟩ := List.mem_map.1 ht
    exact (Markup.settled_escapeText u).angleless

theorem transform_of_isCovered (h : Signless s) (hr : Markup.Referenced s) (hcovered : IsCovered s) :
    (transform ctx s).1 = s := by
  obtain ⟨d, rfl, hfound, hangleless⟩ := hcovered
  have hd : d.Leftmost Fragment.IsFragment := Text.Division.leftmost_of_not_mem (fun _ => Fragment.isFragment_head)
    (fun f hf => (hfound f hf).1) fun t ht hlt => (hangleless t ht _ hlt).1 rfl
  have hbetween : ∀ t ∈ d.between, Signless t := fun t ht c hc =>
    h c ((Text.Division.infix_of_mem_between ht).subset hc)
  have hstart : ∀ f ∈ d.found, ∃ within, f = Mark.startTag within := fun f hf => (hfound f hf).1.exists_within
  obtain ⟨href, hrefFound⟩ := Fragment.referenced_division hstart hr
  rw [transform_division ctx hd hbetween]
  refine Text.Division.map_congr (fun t ht => Markup.Settled.escapeText_eq ⟨href t ht, hangleless t ht⟩) fun f hf => ?_
  have hreff : Markup.Referenced f := by
    obtain ⟨within, rfl⟩ := hstart f hf
    have hw := hrefFound _ hf
    rw [Fragment.inside_startTag] at hw
    exact Fragment.referenced_startTag hw
  exact Fragment.escape_of_isTagged (hfound f hf).2 hreff

/-- **When a result is its own result.** Transforming a result without signs again
changes nothing exactly if each of its angle brackets belongs to a tag within an
element that is found. -/
theorem transform_again_iff (h : Signless (transform ctx s).1) :
    (transform ctx (transform ctx s).1).1 = (transform ctx s).1 ↔ IsCovered (transform ctx s).1 :=
  ⟨isCovered_of_transform h, transform_of_isCovered h (referenced_transform ctx s)⟩

/-- Emphasis, a note with emphasis in it, a link, and characters that are escaped. -/
theorem transform_again_note :
    let s := "*a* and **b**^[x *y*] [z](h) < &".toList
    let y := "<em>a</em> and <alert>b</alert><fn>x <em>y</em></fn> <url href=\"h\">z</url> &lt; &amp;".toList
    (transform ⟨.xref, [], .empty⟩ s).1 = y ∧ Signless y ∧ IsCovered y ∧ (transform ⟨.xref, [], .empty⟩ y).1 = y := by
  intro s y
  have hy : (transform ⟨.xref, [], .empty⟩ s).1 = y := by decide +kernel
  have hsignless : Signless y := by
    unfold Signless
    decide +kernel
  have hcovered : IsCovered y := by
    let d : Text.Division := .next [] "<em>a</em>".toList (.next " and ".toList "<alert>b</alert>".toList
      (.next [] "<fn>x <em>y</em></fn>".toList (.next " ".toList "<url href=\"h\">z</url>".toList
        (.last " &lt; &amp;".toList))))
    have hfound : ∀ f ∈ d.found, Fragment.IsFragment f ∧ Fragment.escape f = f := by decide +kernel
    have hbetween : ∀ t ∈ d.between, Markup.Angleless t := by
      unfold Markup.Angleless
      decide +kernel
    exact ⟨d, by decide +kernel, fun f hf => ⟨(hfound f hf).1, (Fragment.escape_eq_iff.1 (hfound f hf).2).1⟩, hbetween⟩
  have hagain := (@transform_again_iff ⟨.xref, [], .empty⟩ s (hy ▸ hsignless)).2 (hy ▸ hcovered)
  rw [hy] at hagain
  exact ⟨hy, hsignless, hcovered, hagain⟩

/-- Emphasis within emphasis: the second run takes the first end tag for the outer
element, and the last one for text. -/
theorem transform_nested_emphasis :
    let y := "<em>a <em>b</em> c</em>".toList
    (transform ⟨.xref, [], .empty⟩ "*a *b* c*".toList).1 = y ∧ Signless y ∧
      (transform ⟨.xref, [], .empty⟩ y).1 = "<em>a <em>b</em> c&lt;/em&gt;".toList ∧
      (transform ⟨.xref, [], .empty⟩ y).1 ≠ y := by
  unfold Signless
  decide +kernel

end Inline
end QuartoPretext
