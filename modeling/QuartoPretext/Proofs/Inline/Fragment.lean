/-
# Tags and elements of known names

The markup that is taken as it stands in a source is stated as a pattern: a tag
that closes itself, or a start tag and everything up to the first end tag of its
name. The recognisers take exactly the tags and the elements of this kind.

Key definitions: `Fragment.IsTag`, `Fragment.IsFragment`.
Key theorems: `Text.cut?_eq_some_iff`, `Fragment.find?_eq_some_iff`,
`Fragment.recognises_find`, `Fragment.recognises_tagPiece`.
-/
import QuartoPretext.Proofs.Inline.Shield
import QuartoPretext.Proofs.Markup.Nested
import QuartoPretext.Proofs.Markup.Reference
import QuartoPretext.Proofs.Text.Division

namespace QuartoPretext

/-! ### The first place of a mark -/

namespace Text

theorem not_infix_of_cut? {mark : Text} (hmark : mark ≠ []) : ∀ {s before after : Text},
    cut? mark s = some (before, after) → ¬mark <:+: before
  | [], before, after, h => by
    unfold cut? at h
    split at h
    · next hempty => exact absurd (List.isEmpty_iff.1 hempty) hmark
    · cases h
  | d :: s, before, after, h => by
    have hs := append_eq_of_cut? h
    unfold cut? at h
    split at h
    · cases h
      rwa [List.infix_nil]
    · next hnone =>
      obtain ⟨⟨b, a⟩, hcut, he⟩ := Option.map_eq_some_iff.1 h
      cases he
      rw [List.infix_cons_iff, not_or]
      refine ⟨?_, not_infix_of_cut? hmark hcut⟩
      rintro ⟨more, hmore⟩
      rw [← hs, ← hmore, List.append_assoc, List.append_assoc, dropPrefix?_append] at hnone
      cases hnone

/-- A mark whose first character stands nowhere else in it has no two places that
overlap. -/
theorem cut?_of_not_infix {c : Char} {mark : Text} (hc : c ∉ mark) (after : Text) : ∀ {before : Text},
    ¬(c :: mark) <:+: before → cut? (c :: mark) (before ++ c :: mark ++ after) = some (before, after)
  | [], _ => by
    rw [List.nil_append, List.cons_append, cut?, ← List.cons_append, dropPrefix?_append]
  | d :: before, h => by
    rw [List.infix_cons_iff, not_or] at h
    have hnone : dropPrefix? (c :: mark) (d :: (before ++ c :: mark ++ after)) = none := by
      refine Option.eq_none_iff_forall_not_mem.2 fun rest hrest => ?_
      have he := append_eq_of_dropPrefix? hrest
      rw [List.append_assoc, ← List.cons_append] at he
      rcases List.append_eq_append_iff.1 he with ⟨more, hpre, _⟩ | ⟨reached, hpre, hreached⟩
      · exact h.1 ⟨more, hpre.symm⟩
      · cases reached with
        | nil => exact h.1 ⟨[], by simpa using hpre⟩
        | cons e reached =>
          obtain rfl : c = e := (List.cons.inj hreached).1
          refine hc ?_
          rw [(List.cons.inj hpre).2]
          exact List.mem_append_right before List.mem_cons_self
    rw [List.cons_append, List.cons_append, cut?, hnone, cut?_of_not_infix hc after h.2]
    rfl

theorem cut?_eq_some_iff {c : Char} {mark s before after : Text} (hc : c ∉ mark) :
    cut? (c :: mark) s = some (before, after) ↔ s = before ++ c :: mark ++ after ∧ ¬(c :: mark) <:+: before := by
  constructor
  · exact fun h => ⟨(append_eq_of_cut? h).symm, not_infix_of_cut? (List.cons_ne_nil c mark) h⟩
  · rintro ⟨rfl, h⟩
    exact cut?_of_not_infix hc after h

end Text

namespace Fragment

open Text Mark

variable {name attrs s t rest : Text}

/-! ### Tags -/

/-- What stands in a tag after its name: nothing, a slash, or white space and
anything but angle brackets. -/
inductive IsTagRest : Text → Prop
  | bare : IsTagRest []
  | slash : IsTagRest ['/']
  | spaced {c : Char} {s : Text} : isSpace c → Markup.Angleless (c :: s) → IsTagRest (c :: s)

/-- A tag of a known name: a start tag, one that closes itself, or an end tag. -/
inductive IsTag : Text → Prop
  | start {name attrs : Text} : name ∈ names → IsTagRest attrs → IsTag (startTag (name ++ attrs))
  | stop {name attrs : Text} : name ∈ names → IsTagRest attrs → IsTag (startTag ('/' :: name ++ attrs))

/-- An element of a known name: a tag that closes itself, or a start tag and what
follows on the same line up to the first end tag of its name. -/
inductive IsFragment : Text → Prop
  | single {name attrs : Text} : name ∈ names → IsTagRest attrs → attrs.getLast? = some '/' →
      IsFragment (startTag (name ++ attrs))
  | paired {name attrs content : Text} : name ∈ names → IsTagRest attrs → attrs.getLast? ≠ some '/' →
      '\n' ∉ content → ¬endTag name <:+: content →
      IsFragment (startTag (name ++ attrs) ++ content ++ endTag name)

theorem name_alpha : ∀ name ∈ names, ∀ c ∈ name, c.isAlpha := by decide

theorem name_plain (hn : name ∈ names) : ∀ c ∈ name, c ≠ '<' ∧ c ≠ '>' ∧ c ≠ '&' := by
  intro c hc
  have halpha := name_alpha name hn c hc
  refine ⟨?_, ?_, ?_⟩ <;>
  · rintro rfl
    revert halpha
    decide

theorem angleless_of_name (hn : name ∈ names) : Markup.Angleless name :=
  fun c hc => ⟨(name_plain hn c hc).1, (name_plain hn c hc).2.1⟩

theorem IsTagRest.angleless (h : IsTagRest attrs) : Markup.Angleless attrs := by
  cases h with
  | bare => exact nofun
  | slash => simp [Markup.Angleless]
  | spaced _ h => exact h

/-- A name ends where the rest of the tag starts. -/
theorem IsTagRest.head_not_alpha (h : IsTagRest attrs) (rest : Text) :
    (attrs ++ '>' :: rest).head?.any Char.isAlpha = false := by
  cases h with
  | bare | slash => rfl
  | spaced hc _ => exact Text.not_alpha_of_isSpace hc

theorem name?_append (hn : name ∈ names) (hrest : rest.head?.any Char.isAlpha = false) :
    name? (name ++ rest) = some (name, rest) := by
  have hall := name_alpha name hn
  have htake : (name ++ rest).takeWhile Char.isAlpha = name := by
    rw [List.takeWhile_append_of_pos hall]
    cases rest with
    | nil => simp
    | cons c rest => simp_all
  have hdrop : (name ++ rest).dropWhile Char.isAlpha = rest := by
    rw [List.dropWhile_append_of_pos hall]
    cases rest with
    | nil => simp
    | cons c rest => simp_all
  rw [name?, htake, hdrop]
  exact if_pos (List.contains_iff_mem.2 hn)

theorem takeWhile_angleless (hs : Markup.Angleless s) (rest : Text) :
    (s ++ '>' :: rest).takeWhile (!isAngle ·) = s ∧ (s ++ '>' :: rest).dropWhile (!isAngle ·) = '>' :: rest := by
  have hall : ∀ c ∈ s, (!isAngle c) = true := fun c hc => by simp [isAngle, hs c hc]
  have hstop : (!isAngle '>') = false := rfl
  rw [List.takeWhile_append_of_pos hall, List.dropWhile_append_of_pos hall,
    List.takeWhile_cons_of_neg (by simp [hstop]),
    List.dropWhile_cons_of_neg (by simp [hstop]), List.append_nil]
  exact ⟨rfl, rfl⟩

theorem tagRest?_isTagRest (h : tagRest? s = some (attrs, rest)) : IsTagRest attrs := by
  unfold tagRest? at h
  split at h
  · cases h
  · cases h
    exact .bare
  · cases h
    exact .slash
  · next c s _ _ =>
    split at h
    · next hc =>
      split at h
      · cases h
        have hangle : ∀ d ∈ (c :: s).takeWhile (!isAngle ·), d ≠ '<' ∧ d ≠ '>' := by
          intro d hd
          simpa [isAngle] using List.mem_takeWhile_imp hd
        have hcons : (c :: s).takeWhile (!isAngle ·) = c :: s.takeWhile (!isAngle ·) := by
          obtain ⟨hlt, _, hgt, _⟩ := Markup.isSpace_markup hc
          exact List.takeWhile_cons_of_pos (by simp [isAngle, hlt, hgt])
        rw [hcons] at hangle ⊢
        exact .spaced hc hangle
      · cases h
    · cases h

theorem tagRest?_append (h : IsTagRest attrs) (rest : Text) : tagRest? (attrs ++ '>' :: rest) = some (attrs, rest) := by
  cases h with
  | bare | slash => rfl
  | @spaced c s hc hs =>
    obtain ⟨htake, hdrop⟩ := takeWhile_angleless hs rest
    unfold tagRest?
    split
    · next h => cases h
    · next h =>
      cases (List.cons.inj h).1
      cases hc
    · next h =>
      cases (List.cons.inj h).1
      cases hc
    · next d t _ _ h =>
      obtain ⟨rfl, rfl⟩ := List.cons.inj h
      rw [if_pos hc, htake, hdrop]
      rfl

/-- The inside of a tag is a known name and what may stand after one. -/
theorem tag?_eq_some_iff : tag? s = some (name, attrs, rest) ↔
    (name ∈ names ∧ IsTagRest attrs) ∧ s = name ++ attrs ++ '>' :: rest := by
  constructor
  · intro h
    refine ⟨?_, tag?_eq h⟩
    unfold tag? at h
    split at h
    · cases h
    · next name' afterName hn =>
      obtain ⟨⟨a, r⟩, hr, he⟩ := Option.map_eq_some_iff.1 h
      cases he
      refine ⟨?_, tagRest?_isTagRest hr⟩
      unfold name? at hn
      simp only at hn
      split at hn
      · next hmem =>
        cases hn
        exact List.contains_iff_mem.1 hmem
      · cases hn
  · rintro ⟨⟨hn, ha⟩, rfl⟩
    rw [List.append_assoc, tag?, name?_append hn (ha.head_not_alpha rest)]
    simp only [tagRest?_append ha, Option.map_some]

/-! ### Elements -/

theorem cut?_endTag {content : Text} (hn : name ∈ names) : cut? (endTag name) s = some (content, rest) ↔
    s = content ++ endTag name ++ rest ∧ ¬endTag name <:+: content := by
  have hlt : '<' ∉ '/' :: name ++ ['>'] := by
    simp only [List.cons_append, List.mem_cons, List.mem_append, List.not_mem_nil, or_false, not_or]
    exact ⟨by decide, fun h => (angleless_of_name hn _ h).1 rfl, by decide⟩
  exact cut?_eq_some_iff hlt

theorem content?_eq_some_iff {content : Text} (hn : name ∈ names) : content? name s = some (content, rest) ↔
    s = content ++ endTag name ++ rest ∧ ¬endTag name <:+: content ∧ '\n' ∉ content := by
  rw [content?, Option.filter_eq_some_iff, cut?_endTag hn, and_assoc]
  simp

/-- What is found at the start of a text is an element, and every element is found. -/
theorem find?_eq_some_iff {f : Text} : find? s = some (f, rest) ↔ IsFragment f ∧ s = f ++ rest := by
  constructor
  · intro h
    refine ⟨?_, find?_eq h⟩
    unfold find? at h
    split at h
    · split at h
      · cases h
      · next name attrs _ ht =>
        obtain ⟨⟨hn, ha⟩, _⟩ := tag?_eq_some_iff.1 ht
        simp only at h
        split at h
        · next hslash =>
          cases h
          exact .single hn ha (beq_iff_eq.1 hslash)
        · next hslash =>
          obtain ⟨⟨content, after⟩, hc, he⟩ := Option.map_eq_some_iff.1 h
          cases he
          obtain ⟨_, hcontent, hline⟩ := (content?_eq_some_iff hn).1 hc
          exact .paired hn ha (by simpa using hslash) hline hcontent
    · cases h
  · rintro ⟨h, rfl⟩
    cases h with
    | @single name attrs hn ha hslash =>
      have ht : tag? (name ++ attrs ++ '>' :: rest) = some (name, attrs, rest) :=
        tag?_eq_some_iff.2 ⟨⟨hn, ha⟩, rfl⟩
      have hs : startTag (name ++ attrs) ++ rest = '<' :: (name ++ attrs ++ '>' :: rest) := by simp [startTag]
      rw [hs, find?, ht]
      simp only [hslash, beq_self_eq_true, if_true]
      rfl
    | @paired name attrs content hn ha hslash hline hcontent =>
      have ht : tag? (name ++ attrs ++ '>' :: (content ++ endTag name ++ rest)) =
          some (name, attrs, content ++ endTag name ++ rest) := tag?_eq_some_iff.2 ⟨⟨hn, ha⟩, rfl⟩
      have hs : startTag (name ++ attrs) ++ content ++ endTag name ++ rest =
          '<' :: (name ++ attrs ++ '>' :: (content ++ endTag name ++ rest)) := by simp [startTag]
      have hc : content? name (content ++ endTag name ++ rest) = some (content, rest) :=
        (content?_eq_some_iff hn).2 ⟨rfl, hcontent, hline⟩
      rw [hs, find?, ht]
      simp only [beq_iff_eq, hslash, if_false, hc, Option.map_some]
      rfl

instance (s : Text) : Decidable (IsFragment s) :=
  decidable_of_iff (find? s = some (s, [])) (by simp [find?_eq_some_iff])

theorem find?_eq_none_iff : find? s = none ↔ ∀ f, IsFragment f → ¬f <+: s := by
  constructor
  · rintro h f hf ⟨rest, hs⟩
    rw [find?_eq_some_iff.2 ⟨hf, hs.symm⟩] at h
    cases h
  · intro h
    refine Option.eq_none_iff_forall_not_mem.2 fun ⟨f, rest⟩ hfound => ?_
    obtain ⟨hf, hs⟩ := find?_eq_some_iff.1 hfound
    exact h f hf ⟨rest, hs.symm⟩

instance (s : Text) : Decidable (∀ f, IsFragment f → ¬f <+: s) := decidable_of_iff _ find?_eq_none_iff

theorem recognises_find : Recognises IsFragment (fun f => [Cell.mark (.fragment (escape f))])
    (fun t => (find? t).map fun (xml, rest) => ([.mark (.fragment (escape xml))], rest)) := by
  intro s xs rest
  constructor
  · intro h
    obtain ⟨⟨f, after⟩, hf, he⟩ := Option.map_eq_some_iff.1 h
    cases he
    obtain ⟨hfragment, hs⟩ := find?_eq_some_iff.1 hf
    exact ⟨f, hfragment, hs, rfl⟩
  · rintro ⟨f, hf, hs, rfl⟩
    simp only [find?_eq_some_iff.2 ⟨hf, hs⟩, Option.map_some]

theorem isFragment_head {f : Text} (h : IsFragment f) : f.head? = some '<' := by
  cases h <;> rfl

/-- An element stands between two angle brackets. -/
theorem IsFragment.exists_within {f : Text} (h : IsFragment f) : ∃ within, f = startTag within := by
  cases h with
  | @single name attrs _ _ _ => exact ⟨name ++ attrs, rfl⟩
  | @paired name attrs content _ _ _ _ _ =>
    exact ⟨name ++ attrs ++ '>' :: content ++ '<' :: '/' :: name, by simp [startTag, endTag]⟩

theorem isFragment_ne_nil {f : Text} (h : IsFragment f) : f ≠ [] := by
  rintro rfl
  cases isFragment_head h

/-! ### Tags within a fragment -/

theorem IsTag.angleless {tag : Text} (h : IsTag tag) : ∃ inside, tag = startTag inside ∧ Markup.Angleless inside := by
  cases h with
  | start hn ha => exact ⟨_, rfl, (angleless_of_name hn).append ha.angleless⟩
  | stop hn ha =>
    have hslash : Markup.Angleless ['/'] := by simp [Markup.Angleless]
    exact ⟨_, rfl, (hslash.append (angleless_of_name hn)).append ha.angleless⟩

theorem isTag_endTag (hn : name ∈ names) : IsTag (endTag name) := by
  have h := IsTag.stop hn .bare
  rwa [List.append_nil] at h

/-- What stands between the brackets of a tag. -/
def inside (tag : Text) : Text := tag.tail.dropLast

@[simp] theorem inside_startTag (s : Text) : inside (startTag s) = s := by simp [inside, startTag]

theorem recognises_tagPiece : Recognises IsTag (fun tag => [Piece.tag (inside tag)]) tagPiece? := by
  intro s xs rest
  constructor
  · intro h
    unfold tagPiece? at h
    split at h
    · obtain ⟨⟨name, attrs, after⟩, ht, he⟩ := Option.map_eq_some_iff.1 h
      cases he
      obtain ⟨⟨hn, ha⟩, rfl⟩ := tag?_eq_some_iff.1 ht
      exact ⟨_, .stop hn ha, by simp [startTag], by simp⟩
    · obtain ⟨⟨name, attrs, after⟩, ht, he⟩ := Option.map_eq_some_iff.1 h
      cases he
      obtain ⟨⟨hn, ha⟩, rfl⟩ := tag?_eq_some_iff.1 ht
      exact ⟨_, .start hn ha, by simp [startTag], by simp⟩
    · cases h
  · rintro ⟨tag, ht, rfl, rfl⟩
    cases ht with
    | @start name attrs hn ha =>
      have ht : tag? (name ++ attrs ++ '>' :: rest) = some (name, attrs, rest) :=
        tag?_eq_some_iff.2 ⟨⟨hn, ha⟩, rfl⟩
      have hs : startTag (name ++ attrs) ++ rest = '<' :: (name ++ attrs ++ '>' :: rest) := by simp [startTag]
      simp only [hs, inside_startTag]
      unfold tagPiece?
      split
      · next more he =>
        -- a name does not start with the slash of an end tag
        exfalso
        have halpha := name_alpha name hn
        cases name with
        | nil => exact absurd hn (by decide)
        | cons c name =>
          cases (List.cons.inj (List.cons.inj he).2).1
          exact absurd (halpha '/' List.mem_cons_self) (by decide)
      · next more _ he =>
        rw [← (List.cons.inj he).2, ht]
        rfl
      · next hno => exact absurd rfl (hno _)
    | @stop name attrs hn ha =>
      have ht : tag? (name ++ attrs ++ '>' :: rest) = some (name, attrs, rest) :=
        tag?_eq_some_iff.2 ⟨⟨hn, ha⟩, rfl⟩
      have hs : startTag ('/' :: name ++ attrs) ++ rest = '<' :: '/' :: (name ++ attrs ++ '>' :: rest) := by
        simp [startTag]
      simp only [hs, inside_startTag, tagPiece?, ht]
      rfl

theorem isTag_head {tag : Text} (h : IsTag tag) : tag.head? = some '<' := by
  obtain ⟨_, rfl, _⟩ := h.angleless
  rfl

theorem isTag_ne_nil {tag : Text} (h : IsTag tag) : tag ≠ [] := by
  obtain ⟨_, rfl, _⟩ := h.angleless
  exact List.cons_ne_nil _ _

theorem isTag_tail {tag : Text} (h : IsTag tag) : '<' ∉ tag.tail := by
  obtain ⟨inside, rfl, hinside⟩ := h.angleless
  simp only [startTag, List.cons_append, List.tail_cons, List.mem_append, List.mem_singleton, not_or]
  exact ⟨fun h => (hinside _ h).1 rfl, by decide⟩

end Fragment
end QuartoPretext
