/-
# The marker lines of a list

A list takes the line of an item by its marker alone, while the kind of a block is
decided by all that may start one. The two agree but for one kind: no construct
that is tried before list items starts with a bullet, a digit or a small letter,
apart from rules, which are written with bullets too.

Key definitions: `BlockStart.startsMarker`.
Key theorems: `BlockStart.ofLine_of_startsMarker`, `ListReader.classify_of_marker`,
`Body.list_markers`.
-/
import QuartoPretext.Proofs.Block.ListLines

namespace QuartoPretext

open Text

theorem Text.dropPrefix?_of_ne {c d : Char} (h : c ≠ d) (mark s : Text) : dropPrefix? (c :: mark) (d :: s) = none := by
  rw [dropPrefix?, if_neg (by simpa using h)]

/-! ### Lines that start with a marker -/

namespace BlockStart

variable {c : Char} {s : Text}

/-- The characters that a list marker may start with. -/
def startsMarker (c : Char) : Bool := c == '-' || c == '*' || c == '+' || isDigit c || ('a' ≤ c && c ≤ 'z')

theorem rawMarker?_eq {marker rest : Text} (h : rawMarker? (c :: s) = some (marker, rest)) :
    startsMarker c ∧ ∃ more, marker = c :: more := by
  have hlabel {label after : Text} {d : Char} (hl : label.head? = some c)
      (h : (if 1 ≤ label.length && label.length ≤ 9 && (d == '.' || d == ')') then some (label ++ [d], after) else none) =
        some (marker, rest)) : ∃ more, marker = c :: more := by
    obtain ⟨more, rfl⟩ := List.head?_eq_some_iff.1 hl
    split at h
    · cases h
      exact ⟨more ++ [d], rfl⟩
    · cases h
  unfold rawMarker? at h
  simp only at h
  split at h
  · next hbullet =>
    cases h
    exact ⟨by simp [startsMarker, hbullet], [], rfl⟩
  · by_cases hdigit : isDigit c
    · rw [List.takeWhile_cons_of_pos hdigit] at h
      refine ⟨by simp [startsMarker, hdigit], ?_⟩
      split at h
      · exact hlabel rfl h
      · cases h
    · rw [List.takeWhile_cons_of_neg hdigit, List.isEmpty_nil, Bool.true_and] at h
      by_cases hletter : 'a' ≤ c && c ≤ 'z'
      · rw [if_pos hletter] at h
        refine ⟨by simp only [startsMarker, hletter, Bool.or_true], ?_⟩
        split at h
        · exact hlabel rfl h
        · cases h
      · simp [hletter] at h

theorem listMarker?_eq {marker rest : Text} (h : listMarker? (c :: s) = some (marker, rest)) :
    startsMarker c ∧ ∃ more, marker = c :: more := by
  unfold listMarker? at h
  split at h
  · next hraw =>
    cases h
    exact rawMarker?_eq hraw
  · next hraw =>
    split at h
    · cases h
      exact rawMarker?_eq hraw
    · cases h
  · cases h

/-- No block but a rule, a list or a paragraph starts with a character of a marker. -/
theorem ofLine_of_startsMarker (hc : startsMarker c) (htrim : trim (c :: s) = c :: s) : ofLine (c :: s) =
    if isRule (c :: s) then rule else if (listMarker? (c :: s)).isSome then listItem else paragraph := by
  have hne {d : Char} (hd : startsMarker d = false) : d ≠ c := by
    rintro rfl
    rw [hd] at hc
    cases hc
  have hcode : CodeFence.parse? (c :: s) = none := by
    have hticks := hne (d := '\x60') rfl
    have htildes := hne (d := '~') rfl
    rw [CodeFence.parse?, htrim]
    simp [FenceMark.detect?, hticks.symm, htildes.symm]
  have hdiv : DivFence.parse? (c :: s) = none := by
    have hcolons := hne (d := ':') rfl
    simp [DivFence.parse?, htrim, hcolons.symm]
  have hmath : displayMath? (c :: s) = none := by
    rw [displayMath?, mathMark, dropPrefix?_of_ne (hne rfl)]
    rfl
  have hinclude : include? (c :: s) = none := by
    rw [include?, between?, dropPrefix?_of_ne (hne rfl)]
    rfl
  have himage : image? (c :: s) = none := by
    rw [image?, dropPrefix?_of_ne (hne rfl)]
    rfl
  have hlayout : Layout.isCommandLine (c :: s) = false := by
    have hspace : Layout.space? (c :: s) = none := by
      have hh : dropPrefix? "\\hspace".toList (c :: s) = none := dropPrefix?_of_ne (hne rfl) _ s
      have hv : dropPrefix? "\\vspace".toList (c :: s) = none := dropPrefix?_of_ne (hne rfl) _ s
      rw [Layout.space?, hh, hv]
      rfl
    have hword : Layout.word? (c :: s) = none := by
      rw [Layout.word?, dropPrefix?_of_ne (hne rfl)]
      rfl
    rw [Layout.isCommandLine, List.length_cons, Layout.isCommands, Layout.command?, hspace, hword]
    · rfl
    · exact List.cons_ne_nil c s
  have hdefinition : Footnotes.definition? (c :: s) = none := by
    rw [Footnotes.definition?, dropPrefix?_of_ne (hne rfl)]
  rw [ofLine, hcode, hdiv, hmath, hinclude, himage, hlayout, hdefinition]
  rfl

/-- A rule that has a list marker starts with a bullet. -/
theorem ofMarker_of_isRule {marker rest : Text} (hm : listMarker? s = some (marker, rest)) (hrule : isRule s) :
    ListStyle.ofMarker marker = .unordered := by
  cases s with
  | nil => cases hrule
  | cons c s =>
    obtain ⟨hc, more, rfl⟩ := listMarker?_eq hm
    simp only [isRule, Bool.and_eq_true, Bool.or_eq_true, beq_iff_eq] at hrule
    obtain ⟨⟨⟨rfl | rfl⟩ | rfl, -⟩, -⟩ := hrule
    · rfl
    · rfl
    · cases hc

end BlockStart

namespace ListReader

variable {l : Line} {marker first : Text} {column : Nat}

theorem listMarker?_of_marker? (hl : l.Bare) (hm : marker? l = some (marker, first, column)) :
    BlockStart.listMarker? (trim l.text) = some (marker, first) := by
  obtain ⟨⟨marker', first'⟩, hmarker, heq⟩ := Option.map_eq_some_iff.1 hm
  cases heq
  rw [hl.trim_text, hmarker]

/-- A line with a marker is a list item for the reader of blocks, unless it is a rule. -/
theorem classify_of_marker (hl : l.Bare) (hm : marker? l = some (marker, first, column)) (following : List Line) :
    classify l following = if BlockStart.isRule (trim l.text) then .rule else .listItem := by
  have hmarker := listMarker?_of_marker? hl hm
  cases hs : trim l.text with
  | nil =>
    rw [hs] at hmarker
    cases hmarker
  | cons c s =>
    rw [hs] at hmarker
    obtain ⟨hc, -⟩ := BlockStart.listMarker?_eq hmarker
    have htrim : trim (c :: s) = c :: s := hs ▸ trim_trim l.text
    have hheading : BlockStart.heading? (c :: s) = none := by
      have hsign : c ≠ '#' := by
        rintro rfl
        cases hc
      simp [BlockStart.heading?, hsign]
    have hmatter : BlockStart.isFrontMatter l following = false := by
      have hopen : (c :: s == BlockStart.yamlOpen) = false := by
        simp only [beq_eq_false_iff_ne]
        intro h
        rw [h] at hmarker
        cases hmarker
      simp [BlockStart.isFrontMatter, hs, hopen]
    rw [classify, BlockStart.of, if_neg (by simp [not_isBlank_of_marker? hm]), hs, hheading, hmatter]
    simp only [Bool.false_eq_true, if_false, BlockStart.ofLine_of_startsMarker hc htrim, hmarker, Option.isSome_some,
      if_true]
    split <;> rfl

end ListReader

/-! ### Lists of a body -/

/-- A list that is read has its lines divided among its items. However they are
divided, what a block that starts at the marker line of an item would be is a list
item, or a rule. The first is no rule, and none is in a list of numbers or letters. -/
theorem Body.list_markers {text : Text} {ls : List Line} (hbody : Body text ls) {l : Line} {following rest : List Line}
    (hpos : l :: following <:+ ls) {list : ListBlock} (hread : Block.read l following = .ok (.list list, rest)) :
    (∃ ps, l :: following = ps.flatMap ItemLines.all ++ rest ∧ list.ReadFrom ps) ∧
    ∀ ps, l :: following = ps.flatMap ItemLines.all ++ rest → list.ReadFrom ps →
      ∀ before p after, ps = before ++ p :: after →
      classify p.marker (p.more ++ after.flatMap ItemLines.all ++ rest) =
        (if BlockStart.isRule (trim p.marker.text) then .rule else .listItem) ∧
      (BlockStart.isRule (trim p.marker.text) → before ≠ [] ∧ list.style = .unordered) := by
  have hbare : ∀ k ∈ l :: following, k.Bare := fun k hk => hbody.bare k (hpos.subset hk)
  obtain ⟨hof, hlist⟩ := Block.read_list hread
  constructor
  · obtain ⟨ps, -, hlines, hfrom, -⟩ :=
      ListReader.read_lines hbare (Block.marker?_isSome (hbare l List.mem_cons_self) hof)
    rw [hlist] at hlines hfrom
    exact ⟨ps, hlines, hfrom⟩
  · rintro ps hlines hfrom before p after rfl
    obtain ⟨i, _, ⟨first, continued, hi⟩, -⟩ :=
      List.forall₂_cons_right_iff.1 (List.forall₂_drop_append list.items before (p :: after) hfrom)
    obtain ⟨column, hmarker⟩ := hi.marked
    have hp : p.marker.Bare := by
      refine hbare _ ?_
      rw [hlines]
      simp [ItemLines.all]
    have hclass := ListReader.classify_of_marker hp hmarker
    refine ⟨hclass _, fun hrule => ⟨?_, ?_⟩⟩
    · -- the first marker line is the line that the list was read from
      rintro rfl
      obtain ⟨rfl, -⟩ := List.cons.inj hlines
      have hrules := hclass following
      rw [if_pos hrule, classify, hof] at hrules
      cases hrules
    · rw [← hi.styled]
      exact BlockStart.ofMarker_of_isRule (ListReader.listMarker?_of_marker? hp hmarker) hrule

/-- Numbers of a list are items for the reader of blocks too. -/
theorem Body.list_markers_numbers : ∃ (list : ListBlock) (ps : List ItemLines),
    Block.read ⟨1, "1. a".toList⟩ [⟨2, "2) b".toList⟩] = .ok (.list list, []) ∧ list.style = .ordered ∧
    list.ReadFrom ps ∧ [⟨1, "1. a".toList⟩, ⟨2, "2) b".toList⟩] = ps.flatMap ItemLines.all ∧
    ∀ before p after, ps = before ++ p :: after →
      classify p.marker (p.more ++ after.flatMap ItemLines.all) = .listItem := by
  have hlines : [⟨1, "1. a".toList⟩, ⟨2, "2) b".toList⟩] <:+ Line.ofText "1. a\n2) b".toList := by decide +kernel
  have hread : Block.read ⟨1, "1. a".toList⟩ [⟨2, "2) b".toList⟩] =
      .ok (.list ⟨1, .ordered, [⟨1, "1.".toList, [⟨1, ['a']⟩]⟩, ⟨2, "2)".toList, [⟨2, ['b']⟩]⟩], none⟩, []) := by
    decide +kernel
  obtain ⟨⟨ps, hps, hfrom⟩, hmarkers⟩ := Body.list_markers .document hlines hread
  refine ⟨_, ps, hread, rfl, hfrom, by simpa using hps, fun before p after hsplit => ?_⟩
  obtain ⟨hclass, hrule⟩ := hmarkers ps hps hfrom before p after hsplit
  rw [List.append_nil, if_neg fun h => nomatch (hrule h).2] at hclass
  exact hclass

/-- A rule at the margin of a list of bullets is taken for an item of it. -/
theorem Body.list_takes_rule : Body "- a\n- - -".toList [⟨1, "- a".toList⟩, ⟨2, "- - -".toList⟩] ∧
    Block.read ⟨1, "- a".toList⟩ [⟨2, "- - -".toList⟩] =
      .ok (.list ⟨1, .unordered, [⟨1, ['-'], [⟨1, ['a']⟩]⟩, ⟨2, ['-'], [⟨2, "- -".toList⟩]⟩], none⟩, []) ∧
    classify ⟨2, "- - -".toList⟩ [] = .rule := by
  have hlines : Line.ofText "- a\n- - -".toList = [⟨1, "- a".toList⟩, ⟨2, "- - -".toList⟩] := by decide +kernel
  exact ⟨hlines ▸ .document, by decide +kernel, by decide +kernel⟩

end QuartoPretext
