/-
# Texts make no images

The markup of a text has tags of the elements that its marks make, and of those
that source texts may hold. None of them is an image.

Key definition: `Markup.Imageless`.
Key theorems: `Mark.imageless_of_isOwn`, `Fragment.imageless_escape`, `Inline.imageless_transform`.
-/
import QuartoPretext.Proofs.Inline.MarkTags
import QuartoPretext.Proofs.Inline.Tagged

namespace QuartoPretext

open Markup

/-- Markup in which every opening angle bracket starts a tag, and none is that of an image. -/
abbrev Markup.Imageless (s : Text) : Prop := TagsAll (fun inside => ¬Element.image.name.toList <+: inside) s

variable {s name : Text}

theorem Markup.Imageless.tagsAll (h : Imageless s) (T : Tag → Prop) : TagsAll (Tag.NamesImage T) s :=
  h.mono fun _ => .of_not_leading

/-- A tag whose inside starts with another letter is not that of an image. -/
theorem not_image_of_head {inside : Text} (h : inside.head? ≠ some 'i') : ¬Element.image.name.toList <+: inside := by
  rintro ⟨more, rfl⟩
  exact h rfl

namespace Mark

theorem imageless_element {content : Text} (hangle : Angleless name) (h : ¬Element.image.name.toList <+: name)
    (hcontent : Imageless content) : Imageless (element name content) :=
  tagsAll_element hangle (List.forall_mem_cons.2 ⟨h, by simp [Element.name]⟩) hcontent

/-- No tag that is a mark's own is that of an image. -/
theorem not_image_of_mem_tags {m : Mark} {inside : Text} (h : inside ∈ m.tags) : ¬Element.image.name.toList <+: inside := by
  by_cases hm : ∃ refs, m = .references refs
  · obtain ⟨refs, rfl⟩ := hm
    obtain ⟨r, -, rfl⟩ := List.mem_map.1 h
    exact not_image_of_head (by rw [head?_referenceInside]; decide)
  · have hindex := (head?_of_mem_tags (not_exists.1 hm) h).2
    by_cases hi : inside.head? = some 'i'
    · rw [hindex hi]
      simp [Element.name]
    · exact not_image_of_head hi

theorem imageless_of_isOwn {m : Mark} (h : m.isOwn) : Imageless m.xml := tagsAll_xml h fun _ => not_image_of_mem_tags

theorem imageless_footnote (h : Imageless s) : Imageless (footnote s).xml :=
  imageless_element (by simp [Angleless]) (by simp [Element.name]) h

end Mark

namespace Fragment

theorem not_image_of_name (hn : name ∈ names) (rest : Text) : ¬Element.image.name.toList <+: name ++ rest := by
  have hnames : ∀ name ∈ names, name.head? = some 'i' → name = "idx".toList := by decide
  by_cases hi : name.head? = some 'i'
  · rw [hnames name hn hi]
    simp [Element.name]
  · refine not_image_of_head fun h => ?_
    have hne : ∀ name ∈ names, name ≠ [] := by decide
    obtain ⟨c, more, rfl⟩ := List.exists_cons_of_ne_nil (hne name hn)
    exact hi h

theorem imageless_of_isTag {tag : Text} (h : IsTag tag) : Imageless tag := by
  cases h with
  | start hn ha => exact .single ((angleless_of_name hn).append ha.angleless) (not_image_of_name hn _)
  | stop hn ha =>
    have hslash : Angleless ['/'] := by simp [Angleless]
    exact .single ((hslash.append (angleless_of_name hn)).append ha.angleless) (not_image_of_head (by simp))

theorem imageless_escape (s : Text) : Imageless (escape s) := by
  obtain ⟨d, hd, hfound, hbetween⟩ := isTagged_escape s
  rw [← hd]
  clear hd
  induction d with
  | last t => exact .of_angleless (hbetween t List.mem_cons_self)
  | next t m more ih =>
    have hmore := ih (fun m' hm' => hfound m' (List.mem_cons_of_mem m hm')) fun t' ht' =>
      hbetween t' (List.mem_cons_of_mem t ht')
    exact ((TagsAll.of_angleless (hbetween t List.mem_cons_self)).append
      (imageless_of_isTag (hfound m List.mem_cons_self))).append hmore

end Fragment

/-- No tag in the markup of a text is that of an image. -/
theorem Inline.imageless_transform (ctx : Context) (s : Text) : Imageless (transform ctx s).1 :=
  transform_induct ctx .nil (fun _ _ => .append) (fun t => .of_angleless (settled_escapeText t).angleless)
    Fragment.imageless_escape (fun _ => Mark.imageless_footnote) (fun _ => Mark.imageless_of_isOwn) s

end QuartoPretext
