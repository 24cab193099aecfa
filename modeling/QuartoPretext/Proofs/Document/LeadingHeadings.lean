/-
# The titles of headings

A heading is read in three ways. As a block it loses the brace block at the end of
its title if this gives attributes. Where it leads the body of a div it loses any
brace block, and where it is searched as the start of a solution it loses none. So
the titles agree for headings without braces at their end, and what sets them apart
for others is said here exactly.

Key definitions: `Div.leadTitle`.
Key theorems: `Div.leadingHeading?_eq_some_iff`, `Div.isSolutionTitle_without_braces`,
`Block.heading_titles`.
-/
import QuartoPretext.Proofs.Document.Contained
import QuartoPretext.Proofs.Document.TopLevel

namespace QuartoPretext

open Text

/-! ### Brace blocks -/

namespace Text

theorem mem_dropWhile {p : Char → Bool} {c : Char} (hc : p c = false) {s : Text} (h : c ∈ s) : c ∈ s.dropWhile p := by
  rw [← List.takeWhile_append_dropWhile (p := p) (l := s)] at h
  rcases List.mem_append.1 h with h | h
  · have htake := List.mem_takeWhile_imp h
    rw [hc] at htake
    cases htake
  · exact h

theorem mem_trim {c : Char} (hc : isSpace c = false) {s : Text} (h : c ∈ s) : c ∈ trim s :=
  List.mem_reverse.2 (mem_dropWhile hc (List.mem_reverse.2 (mem_dropWhile hc h)))

theorem exists_trimStart_of_trim {c : Char} {s t : Text} (h : trim s = c :: t) : ∃ more, trimStart s = c :: more := by
  obtain ⟨gap, hgap⟩ : trim s <+: trimStart s := by
    simpa [trim, trimEnd] using List.reverse_prefix.2 (List.dropWhile_suffix isSpace (l := (trimStart s).reverse))
  exact ⟨t ++ gap, by rw [← hgap, h]; rfl⟩

end Text

namespace Attributes

theorem length_of_lastGroup : ∀ {s inside before : Text} {depth : Nat},
    lastGroup depth s = some (inside, before) → before.length ≤ s.length
  | [], _, _, _, h => by cases h
  | c :: s, inside, before, depth, h => by
    have pass {found : Option (Text × Text)} {f : Text → Text}
        (ih : ∀ {a b}, found = some (a, b) → b.length ≤ s.length)
        (h : (found.map fun p => (f p.1, p.2)) = some (inside, before)) : before.length ≤ (c :: s).length := by
      obtain ⟨⟨a, b⟩, hfound, heq⟩ := Option.map_eq_some_iff.1 h
      cases heq
      exact Nat.le_succ_of_le (ih hfound)
    unfold lastGroup at h
    split at h
    · cases ‹_›
    · next heq =>
      cases heq
      exact pass length_of_lastGroup h
    · next heq =>
      cases heq
      split at h
      · cases h
        exact Nat.le_succ _
      · exact pass length_of_lastGroup h
    · next heq =>
      cases heq
      exact pass length_of_lastGroup h

/-- The brace block at the end of a text takes a part of it. -/
theorem of_splitTrailing? {s text inner : Text} (h : splitTrailing? s = some (text, inner)) :
    '\x7d' ∈ s ∧ text.length < s.length := by
  unfold splitTrailing? at h
  split at h
  · next r hr =>
    obtain ⟨⟨inside, before⟩, hgroup, heq⟩ := Option.map_eq_some_iff.1 h
    cases heq
    have htrim : trimEnd s <+: s := by
      simpa [trimEnd] using List.reverse_prefix.2 (List.dropWhile_suffix isSpace (l := s.reverse))
    have hbefore : (trimEnd before.reverse).length ≤ before.length := by
      simpa [trimEnd] using (List.dropWhile_sublist isSpace (l := before)).length_le
    have hlength : r.length + 1 ≤ s.length := by
      rw [← List.length_cons (a := '\x7d'), ← hr, List.length_reverse]
      exact htrim.length_le
    have hgroup := length_of_lastGroup hgroup
    refine ⟨htrim.subset (List.mem_reverse.1 (hr ▸ List.mem_cons_self)), ?_⟩
    show (trimEnd before.reverse).length < s.length
    omega
  · cases h

end Attributes

/-! ### Headings that lead a body -/

/-- A line with a heading is neither code nor a fence of a div. -/
theorem DivFence.plain_of_heading {s raw : Text} {level : Nat} (h : BlockStart.heading? (trim s) = some (level, raw)) :
    Plain s := by
  obtain ⟨rest, htrim⟩ := BlockStart.heading?_eq h
  obtain ⟨more, hstart⟩ := exists_trimStart_of_trim htrim
  constructor
  · rw [FenceMark.next, hstart]
    rfl
  · refine Option.eq_none_iff_forall_not_mem.2 fun d hd => ?_
    obtain ⟨colons, hcolons⟩ := trim_of_parse? hd
    cases htrim.symm.trans hcolons

theorem BlockStart.of_heading {l : Line} {raw : Text} {level : Nat}
    (h : heading? (trim l.text) = some (level, raw)) (following : List Line) : of l following = heading level raw := by
  have hblank : ¬l.isBlank := fun hblank => by
    rw [trim_of_isBlank hblank] at h
    cases h
  rw [of, if_neg hblank, h]

namespace Div

/-- The title of a heading that leads a body: all but a brace block at the end. -/
def leadTitle (raw : Text) : Text := ((Attributes.splitTrailing? raw).map (·.1)).getD raw

theorem leadingHeading?_eq_some_iff {ls rest : List Line} {title : Text} :
    leadingHeading? ls = some (title, rest) ↔ ∃ gap l level raw, ls = gap ++ l :: rest ∧
      (∀ k ∈ gap, k.isBlank) ∧ BlockStart.heading? (trim l.text) = some (level, raw) ∧ title = leadTitle raw := by
  unfold leadingHeading?
  constructor
  · intro h
    split at h
    · cases h
    · next l more hdrop =>
      obtain ⟨⟨level, raw⟩, hheading, heq⟩ := Option.map_eq_some_iff.1 h
      cases heq
      refine ⟨ls.takeWhile Line.isBlank, l, level, raw, ?_, fun k hk => List.mem_takeWhile_imp hk, hheading, rfl⟩
      rw [← hdrop, List.takeWhile_append_dropWhile]
  · rintro ⟨gap, l, level, raw, rfl, hgap, hheading, rfl⟩
    have hblank : ¬l.isBlank := fun hblank => by
      rw [trim_of_isBlank hblank] at hheading
      cases hheading
    simp only [List.dropWhile_append_of_pos hgap, List.dropWhile_cons_of_neg hblank, hheading, Option.map_some]
    rfl

/-- No title with a brace in it only announces a solution. -/
theorem isSolutionTitle_without_braces {title : Text} (h : isSolutionTitle title) : '\x7d' ∉ title := by
  intro hbrace
  have hstops : '\x7d' ∈ trimStops (trim title) :=
    List.mem_reverse.2 (mem_dropWhile rfl (List.mem_reverse.2 (mem_trim rfl hbrace)))
  have hlower : '\x7d' ∈ lowerAscii (trim (trimStops (trim title))) :=
    List.mem_map.2 ⟨'\x7d', mem_trim rfl hstops, rfl⟩
  simp only [isSolutionTitle, Bool.or_eq_true, beq_iff_eq] at h
  rcases h with h | h
  · rw [h] at hlower
    revert hlower
    decide
  · rw [h] at hlower
    revert hlower
    decide

end Div

variable {l : Line} {level : Nat} {raw : Text}

/-- A heading is dropped from the start of a solution by its title without a brace block. -/
theorem Div.withoutSolutionHeading_eq_iff (h : BlockStart.heading? (trim l.text) = some (level, raw)) {gap : List Line}
    (hgap : ∀ k ∈ gap, k.isBlank) (following : List Line) :
    withoutSolutionHeading (gap ++ l :: following) = following ↔ isSolutionTitle (leadTitle raw) := by
  have hlead : leadingHeading? (gap ++ l :: following) = some (leadTitle raw, following) :=
    leadingHeading?_eq_some_iff.2 ⟨gap, l, level, raw, rfl, hgap, h, rfl⟩
  rw [withoutSolutionHeading, hlead]
  by_cases htitle : isSolutionTitle (leadTitle raw)
  · simp [htitle]
  · simp only [htitle]
    refine iff_of_false (fun heq => ?_) (by simp)
    have hlength := congrArg List.length heq
    simp only [Bool.false_eq_true, if_false, List.length_append, List.length_cons] at hlength
    omega

/-- The search for a solution finds a heading by its whole title. -/
theorem Div.splitTop?_isSolutionHeading_iff (h : BlockStart.heading? (trim l.text) = some (level, raw))
    {before : List Line} (hbefore : DivFence.Balanced (before.map (·.text)))
    (hnone : splitTop? Plan.isSolutionHeading 0 none before = none) (following : List Line) :
    splitTop? Plan.isSolutionHeading 0 none (before ++ l :: following) = some (before, l, following) ↔
      isSolutionTitle raw := by
  obtain ⟨hcode, hdiv⟩ := DivFence.plain_of_heading h
  have hcode := Extent.isCode_none_iff.2 hcode
  have haccepts : Plan.isSolutionHeading l (DivFence.parse? l.text) = isSolutionTitle raw := by
    simp [Plan.isSolutionHeading, hdiv, h]
  rw [splitTop?_append _ (Extent.balanced_iff.1 hbefore), hnone, ← haccepts, ← splitTop?_cons_iff hcode following]
  constructor
  · intro hfound
    obtain ⟨⟨b, k, a⟩, hat, heq⟩ := Option.map_eq_some_iff.1 hfound
    simp only [Prod.mk.injEq, List.append_right_eq_self] at heq
    obtain ⟨rfl, rfl, rfl⟩ := heq
    exact hat
  · intro hat
    simp [hat]

/-! ### The three readers -/

/-- A heading is a block of its own. It has the same title where it leads the body
of a div just if no brace block at its end is kept by the block, which keeps those
that give no attributes. And at any place outside of divs and code the search for
a solution finds it just as it would be dropped from the start of the solution,
unless it announces a solution only without the brace block at its end. -/
theorem Block.heading_titles (h : BlockStart.heading? (trim l.text) = some (level, raw)) (following : List Line) :
    ∃ title attrs lead,
      Block.read l following = .ok (.heading l.number level title attrs, following) ∧
      (∀ gap, (∀ k ∈ gap, k.isBlank) →
        Div.leadingHeading? (gap ++ l :: following) = some (lead, following)) ∧
      (lead = title ↔
        ∀ text inner, Attributes.splitTrailing? raw = some (text, inner) → isTitleBlock inner) ∧
      ∀ before gap, DivFence.Balanced (before.map (·.text)) →
        Div.splitTop? Plan.isSolutionHeading 0 none before = none → (∀ k ∈ gap, k.isBlank) →
        ((Div.splitTop? Plan.isSolutionHeading 0 none (before ++ l :: following) = some (before, l, following) ↔
            Div.withoutSolutionHeading (gap ++ l :: following) = following) ↔
          ∀ text inner, Attributes.splitTrailing? raw = some (text, inner) → Div.isSolutionTitle text = false) := by
  refine ⟨(title raw).1, (title raw).2, Div.leadTitle raw, ?_, fun gap hgap => ?_, ?_, ?_⟩
  · simp only [read, BlockStart.of_heading h]
  · exact Div.leadingHeading?_eq_some_iff.2 ⟨gap, l, level, raw, rfl, hgap, h, rfl⟩
  · unfold title Div.leadTitle
    cases hsplit : Attributes.splitTrailing? raw with
    | none => simp
    | some p =>
      obtain ⟨text, inner⟩ := p
      have hne : text ≠ raw := fun heq => by
        have hlength := (Attributes.of_splitTrailing? hsplit).2
        rw [heq] at hlength
        omega
      by_cases hinner : isTitleBlock inner <;> simp [hinner, hne]
  · intro before gap hbefore hnone hgap
    rw [Div.splitTop?_isSolutionHeading_iff h hbefore hnone, Div.withoutSolutionHeading_eq_iff h hgap, Div.leadTitle]
    cases hsplit : Attributes.splitTrailing? raw with
    | none => simp
    | some p =>
      obtain ⟨text, inner⟩ := p
      have hraw : ¬Div.isSolutionTitle raw := fun hraw =>
        Div.isSolutionTitle_without_braces hraw (Attributes.of_splitTrailing? hsplit).1
      simp [hraw]

/-- Attributes are taken off a title by the block and where it leads a body. -/
theorem Block.heading_titles_attributes : ∃ title attrs lead,
    BlockStart.heading? (trim "## Mean \x7b#sec-mean\x7d".toList) = some (2, "Mean \x7b#sec-mean\x7d".toList) ∧
    Block.read ⟨1, "## Mean \x7b#sec-mean\x7d".toList⟩ [] = .ok (.heading 1 2 title attrs, []) ∧
    Div.leadingHeading? [⟨1, "## Mean \x7b#sec-mean\x7d".toList⟩] = some (lead, []) ∧ lead = title := by
  have h : BlockStart.heading? (trim "## Mean \x7b#sec-mean\x7d".toList) = some (2, "Mean \x7b#sec-mean\x7d".toList) := by
    decide +kernel
  have hsplit : Attributes.splitTrailing? "Mean \x7b#sec-mean\x7d".toList = some ("Mean".toList, "#sec-mean".toList) := by
    decide +kernel
  obtain ⟨title, attrs, lead, hread, hlead, hagree, -⟩ :=
    Block.heading_titles (l := ⟨1, "## Mean \x7b#sec-mean\x7d".toList⟩) h []
  refine ⟨title, attrs, lead, h, hread, hlead [] nofun, hagree.2 fun text inner heq => ?_⟩
  cases hsplit.symm.trans heq
  rfl

/-- A set at the end of a title is part of it for the block, and none where the
heading leads a body; a heading with an identifier is dropped from the start of a
solution, and does not start one. -/
theorem Block.heading_titles_differ :
    (Block.read ⟨1, "## Set \x7b1, 2\x7d".toList⟩ [] = .ok (.heading 1 2 "Set \x7b1, 2\x7d".toList Attributes.none, []) ∧
      Div.leadingHeading? [⟨1, "## Set \x7b1, 2\x7d".toList⟩] = some ("Set".toList, [])) ∧
    Div.withoutSolutionHeading [⟨1, "## Solution \x7b#sol\x7d".toList⟩] = [] ∧
    Div.splitTop? Plan.isSolutionHeading 0 none [⟨1, "## Solution \x7b#sol\x7d".toList⟩] = none := by
  decide +kernel

end QuartoPretext
