/-
# Dropped citations leave no references

Where citations are dropped, the markup of a text refers to targets of the known
kinds only, also within notes: a reference in it is made for a key that is
recognised, and the text has no angle bracket, so no reference stands in the source.

Key definitions: `Markup.unescapeAttribute`, `Markup.Keyed`.
Key theorems: `Markup.unescapeAttribute_escapeAttribute`, `Markup.Keyed.isKey`,
`Inline.keyed_transformWithin`, `Inline.transform_keyed`.
-/
import QuartoPretext.Proofs.Inline.MarkTags

namespace QuartoPretext

namespace Markup

/-! ### Attribute values -/

/-- An attribute value as text: what the five references stand for. -/
def unescapeAttribute : Text → Text
  | '&' :: 'l' :: 't' :: ';' :: s => '<' :: unescapeAttribute s
  | '&' :: 'g' :: 't' :: ';' :: s => '>' :: unescapeAttribute s
  | '&' :: 'a' :: 'm' :: 'p' :: ';' :: s => '&' :: unescapeAttribute s
  | '&' :: 'a' :: 'p' :: 'o' :: 's' :: ';' :: s => '\'' :: unescapeAttribute s
  | '&' :: 'q' :: 'u' :: 'o' :: 't' :: ';' :: s => '"' :: unescapeAttribute s
  | c :: s => c :: unescapeAttribute s
  | [] => []

theorem unescapeAttribute_cons {c : Char} (h : c ≠ '&') (s : Text) :
    unescapeAttribute (c :: s) = c :: unescapeAttribute s := by
  rw [unescapeAttribute]
  all_goals
    intro _ hc _
    exact h hc

/-- Escaping an attribute value is undone. -/
theorem unescapeAttribute_escapeAttribute : ∀ s : Text, unescapeAttribute (escapeAttribute s) = s
  | [] => rfl
  | c :: s => by
    have ih := unescapeAttribute_escapeAttribute s
    have hcons : escapeAttribute (c :: s) = attributeChar c ++ escapeAttribute s := rfl
    rw [hcons]
    unfold attributeChar contentChar
    split
    · next hc => simp [unescapeAttribute, ih, beq_iff_eq.1 hc]
    · split
      · next hc => simp [unescapeAttribute, ih, beq_iff_eq.1 hc]
      · split
        · next hc => simp [unescapeAttribute, ih, beq_iff_eq.1 hc]
        · split
          · next hc => simp [unescapeAttribute, ih, beq_iff_eq.1 hc]
          · split
            · next hc => simp [unescapeAttribute, ih, beq_iff_eq.1 hc]
            · next hc =>
              rw [List.singleton_append, unescapeAttribute_cons (by simpa using hc), ih]

/-! ### References in markup -/

/-- A tag of a reference has a key of a target as the first of its attributes. -/
def KeyInside (kinds : List Text) (inside : Text) : Prop :=
  "xref".toList <+: inside → ∃ key more, CrossReference.IsKey kinds key ∧
    inside = "xref ref=\"".toList ++ (escapeAttribute key ++ '"' :: more)

/-- Markup that refers to targets of some kinds only. -/
abbrev Keyed (kinds : List Text) (s : Text) : Prop := TagsAll (KeyInside kinds) s

variable {kinds : List Text} {s : Text}

/-- What the first attribute of a reference reads is a key of a target. -/
theorem Keyed.isKey (h : Keyed kinds s) {before value after : Text} (hvalue : '"' ∉ value)
    (hs : s = before ++ "<xref ref=\"".toList ++ value ++ '"' :: after) :
    CrossReference.IsKey kinds (unescapeAttribute value) := by
  have hopen : s = before ++ '<' :: ("xref ref=\"".toList ++ (value ++ '"' :: after)) := by
    rw [hs]
    simp
  obtain ⟨inside, more, hafter, -, hkey⟩ := h.exists_inside hopen
  have hname : "xref".toList <+: inside := by
    have hsplit : "xref ref=\"".toList ++ (value ++ '"' :: after) =
        "xref".toList ++ (" ref=\"".toList ++ (value ++ '"' :: after)) := by simp
    rw [hsplit] at hafter
    obtain ⟨rest, hrest, -⟩ := Text.exists_append_of_not_mem hafter.symm (by decide)
    exact ⟨rest, hrest.symm⟩
  obtain ⟨key, last, hisKey, rfl⟩ := hkey hname
  rw [List.append_assoc, List.append_cancel_left_eq, List.append_assoc] at hafter
  obtain ⟨rfl, -⟩ := Text.append_cons_inj hafter hvalue (isValue_escapeAttribute key).not_mem_quote
  rwa [unescapeAttribute_escapeAttribute]

/-- A tag whose inside starts with another letter is not that of a reference. -/
theorem keyInside_of_head {inside : Text} (h : inside.head? ≠ some 'x') : KeyInside kinds inside := by
  rintro ⟨more, rfl⟩
  exact absurd rfl h

end Markup

open Markup

namespace Mark

variable {kinds : List Text}

theorem keyInside_referenceInside {r : Reference} (h : CrossReference.IsKey kinds r.key) :
    KeyInside kinds (referenceInside r) := fun _ => ⟨r.key, _, h, rfl⟩

theorem keyed_of_isOwn {m : Mark} (hown : m.isOwn) (h : ∀ refs, m ≠ .references refs) : Keyed kinds m.xml :=
  tagsAll_xml hown fun _ hinside => keyInside_of_head (head?_of_mem_tags h hinside).1

theorem keyed_references {refs : List Reference} (h : ∀ r ∈ refs, CrossReference.IsKey kinds r.key) :
    Keyed kinds (references refs).xml := by
  refine tagsAll_xml rfl fun inside hinside => ?_
  obtain ⟨r, hr, rfl⟩ := List.mem_map.1 hinside
  exact keyInside_referenceInside (h r hr)

theorem keyed_footnote {xml : Text} (h : Keyed kinds xml) : Keyed kinds (footnote xml).xml := by
  refine tagsAll_element (by simp [Angleless]) (fun inside hinside => keyInside_of_head ?_) h
  simp only [elementTags, List.mem_cons, List.not_mem_nil, or_false] at hinside
  rcases hinside with rfl | rfl <;> decide

end Mark

/-! ### Texts -/

namespace Inline

variable {ctx : Context} {body : NoteBody} {s : Text}

theorem closed_keyed (hpolicy : ctx.citations = .drop)
    (hbody : ∀ {id note xml}, ctx.footnotes.get? id = some note → (body note).1 = some xml → Keyed ctx.kinds xml) :
    Closed ctx body fun m => Keyed ctx.kinds m.xml where
  own _ hown h := Mark.keyed_of_isOwn hown h
  references _ hkeys := Mark.keyed_references fun r hr => (hkeys r hr).resolve_right (by simp [hpolicy])
  footnote hnote hxml := Mark.keyed_footnote (hbody hnote hxml)

/-- Without an angle bracket no markup stands in the source. -/
theorem keyed_shielded (hs : '<' ∉ s) :
    Cell.MarksAll (fun m => Keyed ctx.kinds m.xml) (Span.toCells (shielded ctx body s).spans) := by
  intro m hm
  rcases (shielded_rewrites ctx body s).mem_marks m (Cell.mem_marks.2 hm) with hm | ⟨used, hused, hchars⟩
  · simp at hm
  · cases hused with
    | fragment inside =>
      have := hchars '<' List.mem_cons_self
      exact absurd (by simpa [Span.cellsOf] using this) hs
    | math _ _ | displayMath _ _ | code _ _ _ => exact Mark.keyed_of_isOwn rfl fun _ he => Mark.noConfusion he

theorem keyed_run (hpolicy : ctx.citations = .drop)
    (hbody : ∀ {id note xml}, ctx.footnotes.get? id = some note → (body note).1 = some xml → Keyed ctx.kinds xml)
    (hs : '<' ∉ s) : Keyed ctx.kinds (Span.render (run ctx body s).spans) :=
  render_induct .nil (fun _ _ => .append) (fun t => .of_angleless (settled_escapeText t).angleless)
    ((closed_keyed hpolicy hbody).run (keyed_shielded hs))

theorem keyed_transformWithin (hpolicy : ctx.citations = .drop)
    (hnotes : ∀ id note, ctx.footnotes.get? id = some note → '<' ∉ note) : ∀ (depth : Nat) {s : Text}, '<' ∉ s →
      Keyed ctx.kinds (transformWithin ctx depth s).1
  | 0, s, hs => by
    rw [transformWithin_eq]
    exact keyed_run hpolicy nofun hs
  | depth + 1, s, hs => by
    rw [transformWithin_eq]
    refine keyed_run hpolicy (fun {id note xml} hnote hxml => ?_) hs
    cases hxml
    exact keyed_transformWithin hpolicy hnotes depth (hnotes id note hnote)

/-- **Dropped citations leave no references.** If citations are dropped and neither a
text nor a note has an angle bracket, the value of every reference in the markup of
the text is a known kind, a hyphen and a name. These are the keys that are targets
when a citation is read, all keys that are read outside of citations are such, and a
key that is made of the characters of a name and ends in a word character is read
there exactly if it is one. -/
theorem transform_keyed {p : Profile} {footnotes : Footnotes} {s : Text} (hpolicy : p.citations = .drop)
    (hkinds : ∀ kind ∈ p.xrefPrefixes, kind ≠ [] ∧ ∀ c ∈ kind, c.isAlphanum = true)
    (hnotes : ∀ id note, footnotes.get? id = some note → '<' ∉ note) (hs : '<' ∉ s) :
    (∀ before value after, '"' ∉ value →
      (transform (.of p footnotes) s).1 = before ++ "<xref ref=\"".toList ++ value ++ '"' :: after →
        CrossReference.IsKey p.xrefPrefixes (unescapeAttribute value)) ∧
      (∀ key, CrossReference.isTarget p.xrefPrefixes key ↔ CrossReference.IsKey p.xrefPrefixes key) ∧
      (∀ t key rest, CrossReference.key? p.xrefPrefixes t = some (key, rest) →
        CrossReference.isTarget p.xrefPrefixes key) ∧
      ∀ key, CrossReference.key? p.xrefPrefixes key = some (key, []) ↔ CrossReference.isTarget p.xrefPrefixes key ∧
        (∀ c ∈ key, CrossReference.isNameChar c = true) ∧ ∀ c ∈ key.getLast?, Text.isWord c = true := by
  have hwords : ∀ kind ∈ p.xrefPrefixes, ∀ c ∈ kind, Text.isWord c = true := fun kind hkind c hc =>
    Text.isWord_of_isAlphanum ((hkinds kind hkind).2 c hc)
  have htarget (key : Text) : CrossReference.isTarget p.xrefPrefixes key ↔ CrossReference.IsKey p.xrefPrefixes key :=
    CrossReference.isTarget_iff fun kind hkind h => absurd (hwords kind hkind _ h) (by decide)
  have hkeyed : Keyed p.xrefPrefixes (transform (.of p footnotes) s).1 :=
    @keyed_transformWithin (.of p footnotes) hpolicy hnotes noteDepth s hs
  exact ⟨fun _ _ _ hvalue h => hkeyed.isKey hvalue h, htarget,
    fun _ _ _ hkey => (htarget _).2 (CrossReference.key?_eq_append hkey).1, fun _ => CrossReference.key?_self_iff hwords⟩

/-- A profile that drops citations. -/
def dropping : Profile := { Profile.ofKind .chapter with citations := .drop }

/-- A note with a citation and a reference. -/
def citingNote : Footnotes := .ofList [("n".toList, "x [@doe] @fig-c".toList)]

theorem transform_keyed_note :
    (transform (.of dropping citingNote) "See [@smith; @fig-a] and [^n].".toList).1 =
      "See <xref ref=\"fig-a\"/> and <fn>x <xref ref=\"fig-c\"/></fn>.".toList ∧
    CrossReference.IsKey dropping.xrefPrefixes (unescapeAttribute "fig-a".toList) := by
  have hxml : (transform (.of dropping citingNote) "See [@smith; @fig-a] and [^n].".toList).1 =
      "See <xref ref=\"fig-a\"/> and <fn>x <xref ref=\"fig-c\"/></fn>.".toList := by decide +kernel
  have hkinds : ∀ kind ∈ dropping.xrefPrefixes, kind ≠ [] ∧ ∀ c ∈ kind, c.isAlphanum = true := by decide +kernel
  have hnotes : ∀ id note, citingNote.get? id = some note → '<' ∉ note := by
    intro id note hnote
    have hall : ∀ e ∈ citingNote.entries, '<' ∉ e.2 := by decide +kernel
    obtain ⟨before, after, hentries, -⟩ := List.lookup_eq_some_iff.1 hnote
    exact hall (id, note) (by rw [hentries]; simp)
  refine ⟨hxml, (transform_keyed rfl hkinds hnotes (by decide +kernel)).1 "See ".toList _
    "/> and <fn>x <xref ref=\"fig-c\"/></fn>.".toList (by decide +kernel) (hxml.trans (by decide +kernel))⟩

end Inline
end QuartoPretext
