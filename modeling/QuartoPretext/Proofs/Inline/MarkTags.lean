/-
# The tags of a mark

A mark that has markup of its own has tags that are known from the mark: those of
its element, or one for each reference and each link. So what all of these tags are
like, the tags in its markup are like.

Key definition: `Mark.tags`.
Key theorems: `Mark.tagsAll_element`, `Mark.head?_of_mem_tags`, `Mark.tagsAll_xml`.
-/
import QuartoPretext.Proofs.Inline.Marks
import QuartoPretext.Proofs.Markup.Tags

namespace QuartoPretext.Mark

open Markup

/-- What stands between the brackets of the tags of an element without attributes. -/
def elementTags (name : Text) : List Text := [name, '/' :: name]

/-- What stands between the brackets of the tag of a link, before a slash that may end it. -/
def linkInside (href : Text) : Text := "url href=\"".toList ++ (escapeAttribute href ++ ['"'])

/-- What stands between the brackets of the tag of a reference. -/
def referenceInside (r : Reference) : Text :=
  "xref ref=\"".toList ++ (escapeAttribute r.key ++ '"' :: if r.suppressed then " text=\"global\"/".toList else ['/'])

/-- What stands between the brackets of the tags that are a mark's own. -/
def tags : Mark → List Text
  | fragment _ | footnote _ => []
  | math _ => elementTags "m".toList
  | displayMath _ => elementTags "me".toList
  | code _ => elementTags "c".toList
  | references refs => refs.map referenceInside
  | index _ => elementTags "idx".toList ++ elementTags "h".toList
  | bareLink href => [linkInside href ++ ['/']]
  | linkOpen href _ => [linkInside href]
  | linkClose _ => ["/url".toList]
  | noteOpen _ => ["fn".toList]
  | noteClose _ => ["/fn".toList]
  | emphasisOpen e => [e.name]
  | emphasisClose e => ['/' :: e.name]

variable {P : Text → Prop} {name content : Text}

/-- The tags of an element are its own two and those of its content. -/
theorem tagsAll_element (hangle : Angleless name) (h : ∀ inside ∈ elementTags name, P inside) (hcontent : TagsAll P content) :
    TagsAll P (element name content) := by
  have hslash : Angleless ('/' :: name) := Angleless.append (s := ['/']) (by simp [Angleless]) hangle
  exact ((TagsAll.single hangle (h name (by simp [elementTags]))).append hcontent).append
    (.single hslash (h ('/' :: name) (by simp [elementTags])))

theorem angleless_linkInside (href : Text) : Angleless (linkInside href) := by
  have hname : Angleless "url href=\"".toList := by
    unfold Angleless
    decide
  exact hname.append ((angleless_escapeAttribute href).append (by simp [Angleless]))

theorem angleless_referenceInside (r : Reference) : Angleless (referenceInside r) := by
  have hname : Angleless "xref ref=\"".toList := by
    unfold Angleless
    decide
  refine hname.append ((angleless_escapeAttribute r.key).append ?_)
  unfold Angleless
  split <;> decide

theorem head?_linkInside (href : Text) : (linkInside href).head? = some 'u' := by
  unfold linkInside
  generalize escapeAttribute href ++ ['"'] = more
  simp

theorem head?_referenceInside (r : Reference) : (referenceInside r).head? = some 'x' := by
  unfold referenceInside
  generalize escapeAttribute r.key ++ _ = more
  simp

theorem linkTag_append (href slash : Text) : linkTag href ++ (slash ++ ['>']) = startTag (linkInside href ++ slash) := by
  unfold linkTag linkInside startTag
  simp

theorem referenceXml_eq (r : Reference) : referenceXml r = startTag (referenceInside r) := by
  unfold referenceXml referenceInside startTag
  split <;> simp

/-- The tags of other marks than references start neither with an x nor, other than
that of an index entry, with an i. -/
theorem head?_of_mem_tags {m : Mark} (hm : ∀ refs, m ≠ .references refs) {inside : Text} (h : inside ∈ m.tags) :
    inside.head? ≠ some 'x' ∧ (inside.head? = some 'i' → inside = "idx".toList) := by
  cases m with
  | references refs => exact absurd rfl (hm refs)
  | fragment _ | footnote _ => exact absurd h List.not_mem_nil
  | bareLink href | linkOpen href _ =>
    rw [List.mem_singleton.1 h]
    simp only [List.head?_append, head?_linkInside]
    exact ⟨by decide, fun hi => absurd hi (by decide)⟩
  | emphasisOpen e | emphasisClose e =>
    rw [List.mem_singleton.1 h]
    cases e <;> decide
  | index levels =>
    simp only [tags, elementTags, List.cons_append, List.nil_append, List.mem_cons, List.not_mem_nil, or_false] at h
    rcases h with rfl | rfl | rfl | rfl <;> decide
  | math _ | displayMath _ | code _ =>
    simp only [tags, elementTags, List.mem_cons, List.not_mem_nil, or_false] at h
    rcases h with rfl | rfl <;> decide
  | linkClose _ | noteOpen _ | noteClose _ =>
    rw [List.mem_singleton.1 h]
    decide

/-- What the tags of a mark are like, those of its markup are like. -/
theorem tagsAll_xml {m : Mark} (hown : m.isOwn) (h : ∀ inside ∈ m.tags, P inside) : TagsAll P m.xml := by
  have content (s : Text) : TagsAll P (escapeContent s) := .of_angleless (angleless_escapeContent s)
  cases m with
  | fragment _ | footnote _ => cases hown
  | math tex | displayMath tex | code tex => exact tagsAll_element (by simp [Angleless]) h (content tex)
  | references refs =>
    refine joinWith_of (Q := TagsAll P) .nil .append (.of_not_mem (by decide)) fun part hpart => ?_
    obtain ⟨r, hr, rfl⟩ := List.mem_map.1 hpart
    rw [referenceXml_eq]
    exact .single (angleless_referenceInside r) (h _ (List.mem_map_of_mem hr))
  | index levels =>
    obtain ⟨hentry, hlevel⟩ := List.forall_mem_append.1 h
    refine tagsAll_element (by simp [Angleless]) hentry ?_
    clear hentry
    induction levels with
    | nil => exact .nil
    | cons l levels ih => exact (tagsAll_element (by simp [Angleless]) hlevel (content l)).append (ih rfl h)
  | bareLink href =>
    have hslash : Angleless (linkInside href ++ ['/']) := (angleless_linkInside href).append (by simp [Angleless])
    have htag := TagsAll.single hslash (h _ List.mem_cons_self)
    rwa [← linkTag_append] at htag
  | linkOpen href _ =>
    have htag := TagsAll.single (angleless_linkInside href) (h _ List.mem_cons_self)
    rwa [← List.append_nil (linkInside href), ← linkTag_append] at htag
  | linkClose _ | noteOpen _ | noteClose _ =>
    refine .single ?_ (h _ List.mem_cons_self)
    simp [Angleless]
  | emphasisOpen e | emphasisClose e =>
    refine .single ?_ (h _ List.mem_cons_self)
    cases e <;> simp [Emphasis.name, Angleless]

end QuartoPretext.Mark
