/-
# The parts of a solution

A solution is divided by its part markers: a letter in parentheses, with white
space before it or the start of the text, and all the white space after it. The
parts are what stands between, so what stands before the first marker is lost; and
as a marker takes the white space after it, a second one directly after it is none
and starts a part.

Key definitions: `Solution.IsLabel`, `Solution.IsMarker`, `Solution.Opens`,
`Solution.OpensOnce`, `Division.SpaceTaken`, `Division.afters`.
Key theorems: `Solution.split_divides`, `Solution.opens_first_iff`,
`Solution.parts?_divides`.
-/
import QuartoPretext.Proofs.Document.Definitions
import QuartoPretext.Proofs.Solutions.AnswerKey
import QuartoPretext.Proofs.Text.Words

namespace QuartoPretext

namespace Text

variable {P : Text → Prop} {s t rest : Text}

theorem ink_trimmed (ts : List Text) : ink ((ts.map trim).filter (!·.isEmpty)).flatten = ink ts.flatten := by
  rw [List.flatten_filter_not_isEmpty, ink_flatten, ink_flatten, List.map_map]
  exact congrArg List.flatten (List.map_congr_left fun t _ => ink_trim t)

namespace Division

/-- The text after each stretch found goes on without white space. -/
def SpaceTaken : Division → Prop
  | last _ => True
  | next _ _ more => (∀ c ∈ more.text.head?, isSpace c = false) ∧ more.SpaceTaken

/-- What stands before the first stretch found. -/
def first : Division → Text
  | last t => t
  | next t _ _ => t

/-- The divisions of the texts after the stretches found. -/
def afters : Division → List Division
  | last _ => []
  | next _ _ more => more :: more.afters

theorem between_eq (d : Division) : d.between = d.first :: d.afters.map first := by
  induction d with
  | last t => rfl
  | next t m more ih => rw [between, ih]; rfl

theorem first_prepend (u : Text) (d : Division) : (d.prepend u).first = u ++ d.first := by
  cases d <;> rfl

theorem afters_prepend (u : Text) (d : Division) : (d.prepend u).afters = d.afters := by
  cases d <;> rfl

theorem SpaceTaken.prepend {d : Division} (h : d.SpaceTaken) (u : Text) : (d.prepend u).SpaceTaken := by
  cases d <;> exact h

/-- The first text is not matched within, and a match follows it unless the text ends. -/
theorem Leftmost.first {d : Division} (hd : d.Leftmost P) : ∃ rest, d.text = d.first ++ rest ∧
    Unmatched P d.first rest ∧ (rest = [] ∨ ∃ m, P m ∧ m <+: rest) := by
  cases d with
  | last t => exact ⟨[], (List.append_nil t).symm, hd, .inl rfl⟩
  | next t m more =>
    exact ⟨m ++ more.text, List.append_assoc t m more.text, hd.1, .inr ⟨m, hd.2.1, List.prefix_append _ _⟩⟩

/-- What holds of the division after each stretch found. -/
theorem of_mem_afters {d e : Division} (hd : d.Leftmost P) (hs : d.SpaceTaken) (he : e ∈ d.afters) :
    e.Leftmost P ∧ (∀ c ∈ e.text.head?, isSpace c = false) ∧ e.text <:+ d.text := by
  induction d with
  | last t => cases he
  | next t m more ih =>
    have hsuffix : more.text <:+ (next t m more).text := List.suffix_append (t ++ m) more.text
    rcases List.mem_cons.1 he with rfl | he
    · exact ⟨hd.2.2, hs.1, hsuffix⟩
    · obtain ⟨hleft, hhead, htext⟩ := ih hd.2.2 hs.2 he
      exact ⟨hleft, hhead, htext.trans hsuffix⟩

end Division
end Text

namespace Solution

open Text

/-- A letter in parentheses and the white space after it. -/
def IsLabel (s : Text) : Prop := ∃ x gap, 'a' ≤ x ∧ x ≤ 'z' ∧ gap ≠ [] ∧ (∀ c ∈ gap, isSpace c = true) ∧
  s = '(' :: x :: ')' :: gap

/-- A part marker: a label with a white space character before it. -/
def IsMarker (s : Text) : Prop := ∃ c label, isSpace c = true ∧ IsLabel label ∧ s = c :: label

/-- The text starts with a label and white space. -/
def Opens (s : Text) : Prop := ∃ label, IsLabel label ∧ label <+: s

/-- The text starts with one label, all of its white space, and no further label. -/
def OpensOnce (s : Text) : Prop := ∃ label body, IsLabel label ∧ s = label ++ body ∧
  (∀ c ∈ body.head?, isSpace c = false) ∧ ¬Opens body

variable {s t rest after body label : Text} {c : Char} {parts : List Text}

/-! ### Labels -/

theorem partMark?_eq_some_iff : partMark? s = some after ↔
    ∃ label, IsLabel label ∧ s = label ++ after ∧ ∀ c ∈ after.head?, isSpace c = false := by
  constructor
  · intro h
    unfold partMark? at h
    split at h
    · next x c rest =>
      split at h
      · next hcond =>
        simp only [Bool.and_eq_true, decide_eq_true_eq] at hcond
        obtain ⟨⟨ha, hz⟩, hc⟩ := hcond
        cases h
        refine ⟨'(' :: x :: ')' :: c :: rest.takeWhile isSpace, ⟨x, c :: rest.takeWhile isSpace, ha, hz,
          List.cons_ne_nil _ _, List.forall_mem_cons.2 ⟨hc, fun d hd => List.mem_takeWhile_imp hd⟩, rfl⟩, ?_, fun d hd => of_mem_head_dropWhile hd⟩
        simp [trimStart, List.takeWhile_append_dropWhile]
      · cases h
    · cases h
  · rintro ⟨label, ⟨x, gap, ha, hz, hne, hgap, rfl⟩, rfl, hafter⟩
    obtain ⟨c, gap, rfl⟩ := List.exists_cons_of_ne_nil hne
    obtain ⟨hc, hgap⟩ := List.forall_mem_cons.1 hgap
    have hrest : trimStart (gap ++ after) = after := (span_append hgap hafter).2
    simp [partMark?, ha, hz, hc, hrest]

/-- A label at the start of a text goes on to the end of its white space. -/
theorem opens_iff : Opens s ↔ ∃ after, partMark? s = some after := by
  constructor
  · rintro ⟨label, ⟨x, gap, ha, hz, hne, hgap, rfl⟩, rest, rfl⟩
    obtain ⟨c, gap, rfl⟩ := List.exists_cons_of_ne_nil hne
    simp [partMark?, ha, hz, hgap c List.mem_cons_self]
  · rintro ⟨after, h⟩
    obtain ⟨label, hlabel, rfl, -⟩ := partMark?_eq_some_iff.1 h
    exact ⟨label, hlabel, after, rfl⟩

instance : DecidablePred Opens := fun s =>
  decidable_of_iff ((partMark? s).isSome = true) (Option.isSome_iff_exists.trans opens_iff.symm)

theorem exists_marker_prefix_iff : (∃ m, IsMarker m ∧ m <+: c :: s) ↔ isSpace c = true ∧ Opens s := by
  constructor
  · rintro ⟨_, ⟨d, label, hd, hlabel, rfl⟩, hprefix⟩
    obtain ⟨rfl, hlabelPrefix⟩ := List.cons_prefix_cons.1 hprefix
    exact ⟨hd, label, hlabel, hlabelPrefix⟩
  · rintro ⟨hc, label, hlabel, hprefix⟩
    exact ⟨c :: label, ⟨c, label, hc, hlabel, rfl⟩, List.cons_prefix_cons.2 ⟨rfl, hprefix⟩⟩

theorem IsLabel.exists_cons (h : IsLabel label) : ∃ more, label = '(' :: more := by
  obtain ⟨x, gap, -, -, -, -, rfl⟩ := h
  exact ⟨_, rfl⟩

/-- A label ends in white space. -/
theorem IsLabel.exists_concat (h : IsLabel label) : ∃ more c, label = more ++ [c] ∧ isSpace c = true := by
  obtain ⟨x, gap, -, -, hne, hgap, rfl⟩ := h
  obtain ⟨gap, c, rfl⟩ := (List.eq_nil_or_concat' gap).resolve_left hne
  exact ⟨'(' :: x :: ')' :: gap, c, rfl, hgap c (by simp)⟩

theorem IsLabel.not_endsBare (h : IsLabel label) : ¬EndsBare label := by
  obtain ⟨more, c, rfl, hc⟩ := h.exists_concat
  intro hbare
  rw [hbare c List.getLast?_concat] at hc
  cases hc

/-- After a white space character of a label there is nothing but white space. -/
theorem IsLabel.isSpace_after (h : IsLabel (s ++ c :: t)) (hc : isSpace c = true) : ∀ d ∈ t, isSpace d = true := by
  obtain ⟨x, gap, ha, hz, -, hgap, heq⟩ := h
  match s, heq with
  | [], heq =>
    cases heq
    cases hc
  | [_], heq =>
    cases heq
    rw [isSpace_of_letter ha hz] at hc
    cases hc
  | [_, _], heq =>
    cases heq
    cases hc
  | _ :: _ :: _ :: s, heq =>
    cases heq
    exact fun d hd => hgap d (by simp [hd])

theorem not_opens_nil : ¬Opens [] := by
  rintro ⟨label, hlabel, hprefix⟩
  obtain ⟨more, rfl⟩ := hlabel.exists_cons
  cases List.prefix_nil.1 hprefix

theorem Opens.head (h : Opens (c :: s)) : c = '(' := by
  obtain ⟨label, hlabel, hprefix⟩ := h
  obtain ⟨more, rfl⟩ := hlabel.exists_cons
  exact (List.cons_prefix_cons.1 hprefix).1.symm

/-! ### Texts that are divided -/

theorem split_marker (hc : isSpace c = true) (h : partMark? s = some after) : split (c :: s) = [] :: split after := by
  rw [split]
  split
  · next hmark =>
    cases h.symm.trans hmark
    exact if_pos hc
  · next hmark => cases h.symm.trans hmark

theorem split_char (h : ¬(isSpace c = true ∧ Opens s)) {piece : Text} {more : List Text} (hs : split s = piece :: more) :
    split (c :: s) = (c :: piece) :: more := by
  rw [split]
  split
  · next hmark =>
    rw [if_neg fun hc => h ⟨hc, opens_iff.2 ⟨_, hmark⟩⟩, hs]
  · rw [hs]

/-- A text is split by its leftmost markers, each with all the white space after it. -/
theorem split_divides : ∀ s : Text, ∃ d : Division, d.text = s ∧ d.Leftmost IsMarker ∧ d.SpaceTaken ∧ split s = d.between
  | [] => ⟨.last [], rfl, trivial, trivial, by rw [split]; rfl⟩
  | c :: s => by
    by_cases h : isSpace c = true ∧ Opens s
    · obtain ⟨after, hmark⟩ := opens_iff.1 h.2
      obtain ⟨label, hlabel, hs, hafter⟩ := partMark?_eq_some_iff.1 hmark
      have hlength := length_partMark? hmark
      obtain ⟨d, rfl, hleft, htaken, hsplit⟩ := split_divides after
      subst hs
      refine ⟨.next [] (c :: label) d, rfl, ⟨trivial, ⟨c, label, h.1, hlabel, rfl⟩, hleft⟩, ⟨hafter, htaken⟩, ?_⟩
      rw [split_marker h.1 hmark, hsplit]
      rfl
    · obtain ⟨d, rfl, hleft, htaken, hsplit⟩ := split_divides s
      have hnone : ∀ m, IsMarker m → ¬m <+: c :: d.text := fun m hm hprefix =>
        h (exists_marker_prefix_iff.1 ⟨m, hm, hprefix⟩)
      refine ⟨d.prepend [c], Division.text_prepend [c] d, hleft.prepend hnone, htaken.prepend [c], ?_⟩
      rw [Division.between_eq] at hsplit
      rw [split_char h hsplit, Division.between_eq, Division.first_prepend, Division.afters_prepend]
      rfl
termination_by s => s.length
decreasing_by
  · rw [List.length_cons]
    omega
  · exact Nat.lt_succ_self _

/-- The parts of a solution are split off where white space stands before its start. -/
theorem parts?_eq (hs : ['(', 'a', ')'] <+: trim s) : parts? s =
    if (((split (' ' :: trim s)).tail.map trim).filter (!·.isEmpty)).isEmpty then none
    else some (((split (' ' :: trim s)).tail.map trim).filter (!·.isEmpty)) := by
  rw [parts?, if_pos (List.isPrefixOf_iff_prefix.2 hs)]
  cases hmark : partMark? (trim s) with
  | some rest =>
    rw [split_marker (by decide) hmark]
    rfl
  | none =>
    obtain ⟨d, -, -, -, hsplit⟩ := split_divides (trim s)
    have hopens : ¬(isSpace ' ' = true ∧ Opens (trim s)) := fun h => by
      obtain ⟨after, hafter⟩ := opens_iff.1 h.2
      cases hmark.symm.trans hafter
    rw [Division.between_eq] at hsplit
    rw [split_char hopens hsplit, hsplit]
    rfl

theorem exists_division (h : parts? s = some parts) : ['(', 'a', ')'] <+: trim s ∧
    ∃ d : Division, d.text = ' ' :: trim s ∧ d.Leftmost IsMarker ∧ d.SpaceTaken ∧
      parts = ((d.afters.map Division.first).map trim).filter (!·.isEmpty) := by
  have hstart : ['(', 'a', ')'] <+: trim s := by
    by_contra hstart
    rw [parts?, if_neg (mt List.isPrefixOf_iff_prefix.1 hstart)] at h
    cases h
  obtain ⟨d, htext, hleft, htaken, hsplit⟩ := split_divides (' ' :: trim s)
  rw [parts?_eq hstart, hsplit, Division.between_eq, List.tail_cons] at h
  by_cases hempty : (((d.afters.map Division.first).map trim).filter (!·.isEmpty)).isEmpty = true
  · rw [if_pos hempty] at h
    cases h
  · rw [if_neg hempty] at h
    cases h
    exact ⟨hstart, d, htext, hleft, htaken, rfl⟩

/-! ### Parts that start with a label -/

variable {d e : Division}

/-- Where a text goes on with a label, or ends, another label that goes on with text
stands before that. -/
theorem exists_append_of_label (hlabel : IsLabel label) (hbody : ∀ d ∈ body.head?, isSpace d = false) (hne : body ≠ [])
    (hopens : ¬Opens body) (hrest : rest = [] ∨ ∃ m, IsMarker m ∧ m <+: rest) (h : t ++ rest = label ++ body) :
    ∃ b more, isSpace b = false ∧ t = label ++ [b] ++ more := by
  obtain ⟨b, more, rfl⟩ := List.exists_cons_of_ne_nil hne
  have hb : isSpace b = false := hbody b rfl
  rcases hrest with rfl | ⟨m, hm, hprefix⟩
  · exact ⟨b, more, hb, by simpa using h⟩
  obtain ⟨c, r, rfl⟩ : ∃ c r, rest = c :: r := by
    obtain ⟨c, k, -, -, rfl⟩ := hm
    obtain ⟨r, rfl⟩ := hprefix
    exact ⟨c, k ++ r, rfl⟩
  obtain ⟨hc, hr⟩ := exists_marker_prefix_iff.1 ⟨m, hm, hprefix⟩
  have hcb : c ≠ b := fun heq => by
    rw [heq, hb] at hc
    cases hc
  rcases List.append_eq_append_iff.1 h with ⟨k, rfl, hk⟩ | ⟨k, rfl, hk⟩
  · cases k with
    | nil => exact absurd (List.cons.inj hk).1 hcb
    | cons c' k =>
      obtain ⟨rfl, rfl⟩ := List.cons.inj hk
      -- The white space of the label goes on, so the other label starts where it ends.
      cases k with
      | nil => exact absurd hr hopens
      | cons d k =>
        have hd := hlabel.isSpace_after hc d List.mem_cons_self
        rw [hr.head] at hd
        cases hd
  · cases k with
    | nil => exact absurd (List.cons.inj hk).1.symm hcb
    | cons b' k =>
      obtain ⟨rfl, -⟩ := List.cons.inj hk
      exact ⟨b, k, hb, by simp⟩

/-- What stands up to the next marker starts with a label and white space exactly if
one label stands there, and not another one directly after it. -/
theorem opens_first_iff (hleft : e.Leftmost IsMarker) (hhead : ∀ c ∈ e.text.head?, isSpace c = false)
    (hbare : EndsBare e.text) : Opens (trim e.first) ↔ OpensOnce e.text := by
  obtain ⟨rest, htext, hunmatched, hrest⟩ := hleft.first
  have hstart : trim e.first = trimEnd e.first := by
    have hfirst : ∀ c ∈ e.first.head?, isSpace c = false := fun c hc => by
      refine hhead c ?_
      obtain ⟨t, ht⟩ := List.head?_eq_some_iff.1 hc
      rw [htext, ht]
      rfl
    rw [trim, trimStart, dropWhile_of_head hfirst]
  constructor
  · intro h
    obtain ⟨body, hmark⟩ := opens_iff.1 h
    obtain ⟨label, hlabel, hlabelBody, hbody⟩ := partMark?_eq_some_iff.1 hmark
    obtain ⟨gap, hgap, -⟩ := exists_trimEnd_append e.first
    have hne : body ≠ [] := by
      rintro rfl
      rw [hstart, List.append_nil] at hlabelBody
      exact hlabel.not_endsBare (hlabelBody ▸ endsBare_trimEnd e.first)
    obtain ⟨b, more, rfl⟩ := List.exists_cons_of_ne_nil hne
    have hfirst : e.first = label ++ b :: (more ++ gap) := by
      rw [hgap, ← hstart, hlabelBody]
      simp
    refine ⟨label, b :: (more ++ gap) ++ rest, hlabel, by rw [htext, hfirst, List.append_assoc], hbody, fun hopens => ?_⟩
    -- The last character of the label is white space before the second one.
    obtain ⟨before, c, rfl, hc⟩ := hlabel.exists_concat
    obtain ⟨m, hm, hprefix⟩ := exists_marker_prefix_iff.2 ⟨hc, hopens⟩
    rw [hfirst, List.append_assoc] at hunmatched
    exact hunmatched.not_prefix hm hprefix
  · rintro ⟨label, body, hlabel, hlabelBody, hbody, hopens⟩
    have hne : body ≠ [] := by
      rintro rfl
      rw [hlabelBody, List.append_nil] at hbare
      exact hlabel.not_endsBare hbare
    obtain ⟨b, more, hb, hfirst⟩ :=
      exists_append_of_label hlabel hbody hne hopens hrest (htext.symm.trans hlabelBody)
    rw [hstart, hfirst, trimEnd_append (endsBare_concat label hb), List.append_assoc]
    exact ⟨label, hlabel, List.prefix_append _ _⟩

/-! ### Text that is lost -/

/-- Nothing but white space stands before the first marker exactly if the text starts
with one. -/
theorem ink_first_iff (hleft : d.Leftmost IsMarker) (htext : d.text = ' ' :: '(' :: s) :
    ink d.first = [] ↔ Opens ('(' :: s) := by
  obtain ⟨rest, happend, hunmatched, hrest⟩ := hleft.first
  rw [htext] at happend
  constructor
  · intro hink
    have hblank : ∀ c ∈ d.first, isSpace c = true := by simpa [ink] using hink
    have hparen : '(' ∉ d.first := fun h => absurd (hblank _ h) (by decide)
    rcases hrest with rfl | ⟨m, hm, hprefix⟩
    · rw [List.append_nil] at happend
      exact absurd (happend ▸ by simp) hparen
    · rcases hfirst : d.first with _ | ⟨c, _ | ⟨c', t⟩⟩
      · rw [hfirst, List.nil_append] at happend
        exact (exists_marker_prefix_iff.1 ⟨m, hm, happend ▸ hprefix⟩).2
      · rw [hfirst] at happend
        obtain ⟨c', k, hc', -, rfl⟩ := hm
        obtain ⟨more, rfl⟩ := hprefix
        cases happend
        cases hc'
      · rw [hfirst] at happend hparen
        cases happend
        exact absurd (by simp) hparen
  · intro hopens
    obtain ⟨m, hm, hprefix⟩ := exists_marker_prefix_iff.2 ⟨(by decide : isSpace ' ' = true), hopens⟩
    cases hfirst : d.first with
    | nil => rfl
    | cons c t =>
      rw [hfirst] at hunmatched happend
      rw [happend] at hprefix
      exact absurd hprefix (hunmatched.1 m hm)

/-- **Splitting a solution into its parts loses no text if a marker starts it.** The
parts are the texts after the markers of a solution, without the white space around
them and without the blank ones. They have all the ink outside the markers, in order,
exactly if the solution starts with a marker and not with a mere `(a)`. No part starts
with a label exactly if after no marker there stands one more label, alone. -/
theorem parts?_divides (h : parts? s = some parts) : ∃ d : Division, d.text = ' ' :: trim s ∧
    d.Leftmost IsMarker ∧ d.SpaceTaken ∧ parts = (d.between.tail.map trim).filter (!·.isEmpty) ∧
    (ink parts.flatten = ink d.between.flatten ↔ Opens (trim s)) ∧
    ((∀ p ∈ parts, ¬Opens p) ↔ ∀ e ∈ d.afters, ¬OpensOnce e.text) := by
  obtain ⟨hstart, d, htext, hleft, htaken, rfl⟩ := exists_division h
  refine ⟨d, htext, hleft, htaken, by rw [Division.between_eq]; rfl, ?_, ?_⟩
  · obtain ⟨more, hmore⟩ := hstart
    rw [ink_trimmed, Division.between_eq, List.flatten_cons, ink_append, List.self_eq_append_left]
    rw [← hmore] at htext ⊢
    exact ink_first_iff hleft htext
  · have hpart : ∀ e ∈ d.afters, Opens (trim e.first) ↔ OpensOnce e.text := by
      intro e he
      obtain ⟨heleft, hehead, hsuffix⟩ := Division.of_mem_afters hleft htaken he
      refine opens_first_iff heleft hehead (EndsBare.suffix ?_ hsuffix)
      have hbare : EndsBare (trim s) := endsBare_trimEnd _
      rw [htext]
      exact hbare.prepend (List.ne_nil_of_length_pos (Nat.lt_of_lt_of_le (by decide) hstart.length_le)) [' ']
    constructor
    · intro hparts e he honce
      have hopens := (hpart e he).2 honce
      refine hparts (trim e.first) (List.mem_filter.2 ⟨List.mem_map_of_mem (List.mem_map_of_mem he), ?_⟩) hopens
      have hne : trim e.first ≠ [] := fun hnil => not_opens_nil (hnil ▸ hopens)
      simpa using hne
    · intro hafters p hp hopens
      obtain ⟨t, ht, rfl⟩ := List.mem_map.1 (List.mem_filter.1 hp).1
      obtain ⟨e, he, rfl⟩ := List.mem_map.1 ht
      exact hafters e he ((hpart e he).1 hopens)

/-- A letter in parentheses within a part is text of it. -/
theorem parts?_divides_three :
    parts? "(a) Mean(b) is 3.\n(b)  Two (the middle) \n(c) Skewed.".toList =
      some ["Mean(b) is 3.".toList, "Two (the middle)".toList, "Skewed.".toList] ∧
    ∃ d : Division, d.text = " (a) Mean(b) is 3.\n(b)  Two (the middle) \n(c) Skewed.".toList ∧
      d.Leftmost IsMarker ∧ d.SpaceTaken ∧
      ink "Mean(b) is 3.Two (the middle)Skewed.".toList = ink d.between.flatten := by
  have hparts : parts? "(a) Mean(b) is 3.\n(b)  Two (the middle) \n(c) Skewed.".toList =
      some ["Mean(b) is 3.".toList, "Two (the middle)".toList, "Skewed.".toList] := by decide +kernel
  obtain ⟨d, htext, hleft, htaken, -, hink, -⟩ := parts?_divides hparts
  exact ⟨hparts, d, htext.trans (by decide +kernel), hleft, htaken,
    Eq.trans (by decide +kernel) (hink.2 (by decide +kernel))⟩

/-- Without white space after it the first letter is no marker, and the text up to the
next one is in no part; of two markers with nothing between them, the second one is in
a part. -/
theorem parts?_unspaced :
    parts? "(a)Mean is 3. (b) Two.".toList = some ["Two.".toList] ∧
    parts? "(a) (b) Two.".toList = some ["(b) Two.".toList] ∧ Opens "(b) Two.".toList := by decide +kernel

end Solution
end QuartoPretext
