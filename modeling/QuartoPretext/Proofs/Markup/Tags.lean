/-
# The tags of a text

In markup every opening angle bracket starts a tag. What the tags of a text are
like is known from what stands between their brackets. An attribute is read in a
tag after other attributes; in a tag that a writer has made, one is read exactly
if the tag has it.

Key definitions: `TagsAll`, `Shows`, `Tag.inside`, `Tag.NamesImage`.
Key theorems: `TagsAll.exists_inside`, `mem_of_isAttributes`, `TagsAll.of_shows`, `tagsAll_render`.
-/
import QuartoPretext.Proofs.Markup.Reference
import QuartoPretext.Proofs.Markup.Writer
import QuartoPretext.Proofs.Text.Division

namespace QuartoPretext.Markup

open Text

/-- Markup in which every opening angle bracket starts a tag, and what stands between
the brackets of each tag is of a kind. -/
inductive TagsAll (P : Text → Prop) : Text → Prop
  | nil : TagsAll P []
  | char {c : Char} {s : Text} : c ≠ '<' → TagsAll P s → TagsAll P (c :: s)
  | tag {inside s : Text} : Angleless inside → P inside → TagsAll P s → TagsAll P ('<' :: inside ++ '>' :: s)

/-- A tag of an element in a document has an attribute with a value. -/
def Shows (document element name value : Text) : Prop :=
  ∃ before attrs after, IsAttributes attrs ∧ '"' ∉ value ∧
    document = before ++ '<' :: element ++ attrs ++ ' ' :: name ++ '=' :: '"' :: value ++ '"' :: after

theorem Shows.append_left {document element name value : Text} (h : Shows document element name value) (earlier : Text) :
    Shows (earlier ++ document) element name value := by
  obtain ⟨before, attrs, after, hattrs, hvalue, rfl⟩ := h
  exact ⟨earlier ++ before, attrs, after, hattrs, hvalue, by simp⟩

variable {P Q : Text → Prop} {s t : Text}

namespace TagsAll

theorem append (hs : TagsAll P s) (ht : TagsAll P t) : TagsAll P (s ++ t) := by
  induction hs with
  | nil => exact ht
  | char hc _ ih => exact .char hc ih
  | tag hinside hp _ ih =>
    have h := tag hinside hp ih
    simpa using h

theorem mono (hs : TagsAll P s) (h : ∀ inside, P inside → Q inside) : TagsAll Q s := by
  induction hs with
  | nil => exact .nil
  | char hc _ ih => exact .char hc ih
  | tag hinside hp _ ih => exact .tag hinside (h _ hp) ih

theorem of_not_mem : ∀ {s : Text}, '<' ∉ s → TagsAll P s
  | [], _ => .nil
  | c :: _, h => .char (fun hc => h (hc ▸ List.mem_cons_self)) (of_not_mem fun hs => h (List.mem_cons_of_mem c hs))

theorem of_angleless (h : Angleless s) : TagsAll P s := .of_not_mem fun hlt => (h _ hlt).1 rfl

theorem single {inside : Text} (hinside : Angleless inside) (hp : P inside) : TagsAll P (Mark.startTag inside) :=
  .tag hinside hp .nil

theorem trim (h : TagsAll P s) : TagsAll P (trim s) := by
  refine trim_of ?_ ?_ h
  · intro c _ hc h
    cases h with
    | char _ h => exact h
    | tag _ _ _ => exact absurd rfl (isSpace_markup hc).1
  · intro c s hc h
    obtain ⟨-, -, hgt, -⟩ := isSpace_markup hc
    generalize ht : s ++ [c] = t at h
    induction h generalizing s with
    | nil => simp at ht
    | @char d t hd h ih =>
      cases s with
      | nil => exact .nil
      | cons e s =>
        obtain ⟨rfl, hrest⟩ := List.cons.inj ht
        exact .char hd (ih hrest)
    | @tag inside t hinside hp _ ih =>
      obtain ⟨t', rfl, rfl⟩ := append_snoc (p := '<' :: inside) ht.symm hgt
      exact .tag hinside hp (ih rfl)

/-- Where an opening angle bracket stands, there is a tag of the kind. -/
theorem exists_inside (h : TagsAll P s) : ∀ {before after : Text}, s = before ++ '<' :: after →
    ∃ inside more, after = inside ++ '>' :: more ∧ Angleless inside ∧ P inside := by
  induction h with
  | nil => simp
  | @char c s hc _ ih =>
    intro before after hs
    cases before with
    | nil => exact absurd (List.cons.inj hs).1 hc
    | cons d before => exact ih (List.cons.inj hs).2
  | @tag inside s hinside hp _ ih =>
    intro before after hs
    cases before with
    | nil => exact ⟨inside, s, (List.cons.inj hs).2.symm, hinside, hp⟩
    | cons d before =>
      have hlt : '<' ∉ inside ++ ['>'] := by
        rw [List.mem_append, not_or]
        exact ⟨fun h => (hinside _ h).1 rfl, by decide⟩
      have hrest : before ++ '<' :: after = (inside ++ ['>']) ++ s := by simpa using (List.cons.inj hs).2.symm
      obtain ⟨between, -, hs'⟩ := exists_append_of_not_mem hrest hlt
      exact ih hs'

end TagsAll

/-! ### Attributes -/

theorem angleless_contentChar (c : Char) : Angleless (contentChar c) := by
  unfold contentChar
  repeat' split
  all_goals simp_all [Angleless]

theorem angleless_flatMap {α : Type} {f : α → Text} {as : List α} (h : ∀ a ∈ as, Angleless (f a)) :
    Angleless (as.flatMap f) := by
  intro c hc
  obtain ⟨a, ha, hca⟩ := List.mem_flatMap.1 hc
  exact h a ha c hca

theorem angleless_escapeContent (s : Text) : Angleless (escapeContent s) :=
  angleless_flatMap fun c _ => angleless_contentChar c

theorem angleless_escapeAttribute (s : Text) : Angleless (escapeAttribute s) := by
  refine angleless_flatMap fun c _ => ?_
  unfold attributeChar
  split
  · simp [Angleless]
  · split
    · simp [Angleless]
    · exact angleless_contentChar c

theorem IsValue.not_mem_quote (h : IsValue s) : '"' ∉ s := by
  induction h with
  | nil => exact List.not_mem_nil
  | char _ _ hc _ ih => exact fun h => (List.mem_cons.1 h).elim (fun h => hc h.symm) ih
  | @reference name s hn _ ih =>
    have hname : '"' ∉ name := by
      intro hmem
      rcases isEntityName_char hn _ hmem with h | h <;> revert h <;> decide
    simp [hname, ih]

theorem isName_char (h : isName s) : ∀ c ∈ s, c.isAlphanum ∨ c = ':' := by
  cases s with
  | nil => exact nofun
  | cons c s =>
    simp only [isName, Bool.and_eq_true, List.all_eq_true, Bool.or_eq_true, beq_iff_eq] at h
    intro d hd
    rcases List.mem_cons.1 hd with rfl | hd
    · exact .inl (by simp [Char.isAlphanum, h.1])
    · exact h.2 d hd

theorem not_mem_of_isName {c : Char} (h : isName s) (hc : c.isAlphanum = false ∧ c ≠ ':') : c ∉ s := fun hmem =>
  (isName_char h c hmem).elim (by simp [hc.1]) hc.2

theorem angleless_of_isName (h : isName s) : Angleless s := fun c hc => by
  refine ⟨?_, ?_⟩ <;>
  · rintro rfl
    exact not_mem_of_isName h (by decide) hc

/-- An attribute is read in one way. -/
theorem attribute_inj {n n' v v' r r' : Text} (hn : '=' ∉ n) (hn' : '=' ∉ n') (hv : '"' ∉ v) (hv' : '"' ∉ v')
    (h : n ++ '=' :: '"' :: (v ++ '"' :: r) = n' ++ '=' :: '"' :: (v' ++ '"' :: r')) : n = n' ∧ v = v' ∧ r = r' := by
  obtain ⟨rfl, hrest⟩ := append_cons_inj h hn hn'
  obtain ⟨rfl, rfl⟩ := append_cons_inj (List.cons.inj hrest).2 hv hv'
  exact ⟨rfl, rfl, rfl⟩

theorem attributeText_append (a : AttributeName × Text) (rest : Text) : Tag.attributeText a ++ rest =
    ' ' :: (a.1.name.toList ++ '=' :: '"' :: (escapeAttribute a.2 ++ '"' :: rest)) := by
  simp [Tag.attributeText]

/-- An attribute that is read after others in a tag is one of the tag. -/
theorem mem_of_isAttributes {attrs name value after rest : Text} {c : Char} (hattrs : IsAttributes attrs)
    (hname : '=' ∉ name) (hvalue : '"' ∉ value) (hc : c ≠ ' ') : ∀ {as : List (AttributeName × Text)},
      attrs ++ ' ' :: (name ++ '=' :: '"' :: (value ++ '"' :: after)) = as.flatMap Tag.attributeText ++ c :: rest →
      ∃ a ∈ as, name = a.1.name.toList ∧ value = escapeAttribute a.2 := by
  have heq {a : AttributeName} : '=' ∉ a.name.toList := not_mem_of_isName (isName_attribute a) (by decide)
  have hquote {s : Text} : '"' ∉ escapeAttribute s := (isValue_escapeAttribute s).not_mem_quote
  induction hattrs with
  | nil =>
    intro as h
    cases as with
    | nil => exact absurd (List.cons.inj h).1.symm hc
    | cons a as =>
      rw [List.flatMap_cons, List.append_assoc, attributeText_append] at h
      obtain ⟨hn, hv, -⟩ := attribute_inj hname heq hvalue hquote (List.cons.inj h).2
      exact ⟨a, List.mem_cons_self, hn, hv⟩
  | @cons n v s hn hv _ ih =>
    intro as h
    simp only [List.cons_append, List.append_assoc] at h
    cases as with
    | nil => exact absurd (List.cons.inj h).1.symm hc
    | cons a as =>
      rw [List.flatMap_cons, List.append_assoc, attributeText_append] at h
      obtain ⟨-, -, hrest⟩ := attribute_inj (not_mem_of_isName hn (by decide)) heq hv.not_mem_quote hquote
        (List.cons.inj h).2
      obtain ⟨a', ha', hfound⟩ := ih hrest
      exact ⟨a', List.mem_cons_of_mem a ha', hfound⟩

/-! ### Tags of images -/

/-- What stands between the brackets of a start tag. -/
def Tag.inside (t : Tag) : Text := t.element.name.toList ++ t.attrs.flatMap attributeText

/-- Only tags of some kind, if any, start with the name of images. -/
def Tag.NamesImage (T : Tag → Prop) (inside : Text) : Prop :=
  Element.image.name.toList <+: inside → ∃ t, T t ∧ t.element = .image ∧ (inside = t.inside ∨ inside = t.inside ++ ['/'])

theorem image_not_leading {e : Element} (he : e ≠ .image) (rest : Text) :
    ¬Element.image.name.toList <+: e.name.toList ++ rest := by
  rintro ⟨more, h⟩
  cases e <;> simp [Element.name] at h he

namespace Tag

variable {T : Tag → Prop}

theorem NamesImage.of_not_leading {inside : Text} (h : ¬Element.image.name.toList <+: inside) : NamesImage T inside :=
  fun hprefix => absurd hprefix h

theorem openText_eq (t : Tag) : t.openText = '<' :: t.inside := by simp [openText, inside]

theorem angleless_inside (t : Tag) : Angleless t.inside := by
  refine (angleless_of_isName (isName_element t.element)).append (angleless_flatMap fun ⟨a, value⟩ _ c hc => ?_)
  simp only [attributeText, List.cons_append, List.append_assoc, List.mem_cons, List.mem_append, List.not_mem_nil,
    or_false] at hc
  rcases hc with rfl | hc | rfl | rfl | hc | rfl
  · decide
  · exact angleless_of_isName (isName_attribute a) c hc
  · decide
  · decide
  · exact angleless_escapeAttribute value c hc
  · decide

theorem namesImage_inside {t : Tag} (h : t.element = .image → T t) {slash : Text} (hslash : slash = [] ∨ slash = ['/']) :
    NamesImage T (t.inside ++ slash) := by
  intro hprefix
  by_cases ht : t.element = .image
  · refine ⟨t, h ht, ht, ?_⟩
    rcases hslash with rfl | rfl
    · exact .inl (List.append_nil _)
    · exact .inr rfl
  · rw [inside, List.append_assoc] at hprefix
    exact absurd hprefix (image_not_leading ht _)

end Tag

namespace Event

variable {T : Tag → Prop} {e : Event} {es : List Event}

/-- The tag that an event starts. -/
def tag? : Event → Option Tag
  | startTag t | leaf t _ | empty t => some t
  | verbatim e _ => some (.plain e)
  | endTag _ => none

theorem openText_infix {t : Tag} (ht : e.tag? = some t) (depth : Nat) : t.openText <:+: e.text depth := by
  cases e with
  | endTag e => cases ht
  | startTag t' | leaf t' content | empty t' =>
    cases ht
    exact ⟨indentation depth, _, by simp [text]; rfl⟩
  | verbatim e lines =>
    cases ht
    exact ⟨indentation depth, _, by simp [text]; rfl⟩

/-- The tags of images that an event writes are of a kind. -/
structure Writes (T : Tag → Prop) (e : Event) : Prop where
  tag : ∀ t, e.tag? = some t → t.element = .image → T t
  content : ∀ t xml, e = leaf t xml → TagsAll (Tag.NamesImage T) xml

theorem tagsAll_openText {t : Tag} (h : t.element = .image → T t) {slash : Text} (hslash : slash = [] ∨ slash = ['/']) :
    TagsAll (Tag.NamesImage T) (t.openText ++ (slash ++ ['>'])) := by
  have hangle : Angleless slash := by
    rcases hslash with rfl | rfl <;> simp [Angleless]
  have htag := TagsAll.single (t.angleless_inside.append hangle) (Tag.namesImage_inside h hslash)
  simpa [Tag.openText_eq, Mark.startTag] using htag

theorem tagsAll_endText (e : Element) : TagsAll (Tag.NamesImage T) (Tag.endText e) := by
  have hangle : Angleless ('/' :: e.name.toList) := by
    intro c hc
    rcases List.mem_cons.1 hc with rfl | hc
    · decide
    · exact angleless_of_isName (isName_element e) c hc
  exact .single hangle (.of_not_leading (by simp [Element.name]))

theorem tagsAll_text (h : e.Writes T) (depth : Nat) : TagsAll (Tag.NamesImage T) (e.text depth) := by
  have hindent (n : Nat) : TagsAll (Tag.NamesImage T) (indentation n) := .of_not_mem fun h =>
    absurd (List.eq_of_mem_replicate h) (by decide)
  have hline : TagsAll (Tag.NamesImage T) ['\n'] := .of_not_mem (by decide)
  cases e with
  | startTag t =>
    have htag := tagsAll_openText (h.tag t rfl) (.inl rfl)
    simpa [text] using ((hindent depth).append htag).append hline
  | endTag e => exact ((hindent _).append (tagsAll_endText e)).append hline
  | leaf t content =>
    have htag := tagsAll_openText (h.tag t rfl) (.inl rfl)
    have hclose := (tagsAll_endText (T := T) t.element).append hline
    simpa [text] using ((hindent depth).append htag).append ((h.content t content rfl).append hclose)
  | empty t =>
    have htag := tagsAll_openText (h.tag t rfl) (.inr rfl)
    simpa [text] using ((hindent depth).append htag).append hline
  | verbatim e lines =>
    have htag := tagsAll_openText (h.tag (.plain e) rfl) (.inl rfl)
    have hlines : Angleless (lines.flatMap fun l => escapeContent l ++ ['\n']) :=
      angleless_flatMap fun l _ => (angleless_escapeContent l).append (by simp [Angleless])
    have hclose := (hindent depth).append ((tagsAll_endText (T := T) e).append hline)
    simpa [text] using ((hindent depth).append htag).append (hline.append ((TagsAll.of_angleless hlines).append hclose))

end Event

variable {T : Tag → Prop} {es : List Event}

theorem tagsAll_render : ∀ {es : List Event}, (∀ e ∈ es, e.Writes T) → ∀ depth, TagsAll (Tag.NamesImage T) (render depth es)
  | [], _, _ => .nil
  | e :: _, h, depth =>
    (Event.tagsAll_text (h e List.mem_cons_self) depth).append
      (tagsAll_render (fun e' he => h e' (List.mem_cons_of_mem e he)) _)

/-- An attribute that is read in a tag of an image is one of a tag of the kind. -/
theorem TagsAll.of_shows {document name value : Text} (h : TagsAll (Tag.NamesImage T) document) (hname : '=' ∉ name)
    (hshows : Shows document Element.image.name.toList name value) :
    ∃ t, T t ∧ t.element = .image ∧ ∃ a ∈ t.attrs, name = a.1.name.toList ∧ value = escapeAttribute a.2 := by
  obtain ⟨before, attrs, after, hattrs, hvalue, rfl⟩ := hshows
  obtain ⟨inside, more, hafter, -, hinside⟩ := h.exists_inside
    (show _ = before ++ '<' :: (Element.image.name.toList ++
      (attrs ++ ' ' :: (name ++ '=' :: '"' :: (value ++ '"' :: after)))) by simp)
  have hprefix : Element.image.name.toList <+: inside := by
    obtain ⟨rest, rfl, -⟩ := exists_append_of_not_mem hafter.symm (by decide)
    exact List.prefix_append _ _
  obtain ⟨t, ht, himage, htag⟩ := hinside hprefix
  obtain ⟨c, rest, hc, hmore⟩ : ∃ c rest, c ≠ ' ' ∧ inside ++ '>' :: more = t.inside ++ c :: rest := by
    rcases htag with rfl | rfl
    · exact ⟨'>', more, by decide, rfl⟩
    · exact ⟨'/', '>' :: more, by decide, by simp⟩
  rw [hmore, Tag.inside, himage, List.append_assoc, List.append_cancel_left_eq] at hafter
  exact ⟨t, ht, himage, mem_of_isAttributes hattrs hname hvalue hc hafter⟩

/-- An attribute of a tag that is written is read there. -/
theorem shows_render {e : Event} {t : Tag} {earlier later : List (AttributeName × Text)} {a : AttributeName × Text}
    (he : e ∈ es) (ht : e.tag? = some t) (hattrs : t.attrs = earlier ++ a :: later) (depth : Nat) :
    Shows (render depth es) t.element.name.toList a.1.name.toList (escapeAttribute a.2) := by
  obtain ⟨es₁, es₂, rfl⟩ := List.append_of_mem he
  obtain ⟨before, after, htext⟩ := Event.openText_infix ht (es₁.foldl Event.depthAfter depth)
  refine ⟨render depth es₁ ++ before, earlier.flatMap Tag.attributeText,
    later.flatMap Tag.attributeText ++ after ++ render (e.depthAfter (es₁.foldl Event.depthAfter depth)) es₂,
    isAttributes_flatMap earlier, (isValue_escapeAttribute a.2).not_mem_quote, ?_⟩
  rw [render_append, render, ← htext, Tag.openText_eq, Tag.inside, hattrs]
  simp [Tag.attributeText]

end QuartoPretext.Markup
