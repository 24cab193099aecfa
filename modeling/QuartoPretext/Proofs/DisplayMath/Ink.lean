/-
# Rows of display math lose nothing

Display math is one expression, kept as it is, or rows. The rows hold the ink of the
source in order, but for the wrappers and the row breaks, and with a macro for each
alignment point. No row is empty, and none holds a row break or an ampersand that is
not escaped. Alignment points are told by whether the backslash before an ampersand is
escaped itself; as no row holds two backslashes in a row, that is whether there is one.

Key definitions: `DisplayMath.pointsAsMacro`, `DisplayMath.IsRow`.
Key theorems: `DisplayMath.alignmentPoints_eq`, `DisplayMath.isRow_pointsAsMacro`,
`DisplayMath.ink_pointsAsMacro`, `DisplayMath.ofRows?_keeps`.
-/
import QuartoPretext.Proofs.DisplayMath.Breaks

namespace QuartoPretext.DisplayMath

open Text

/-- The text with a macro for each ampersand that does not stand directly after a
backslash; `slash` tells whether one stands directly before the text. -/
def pointsAsMacro (slash : Bool) : Text → Text
  | [] => []
  | c :: s => (if c = '&' ∧ slash = false then "\\amp ".toList else [c]) ++ pointsAsMacro (c == '\\') s

/-- What every row is like: it is not empty, and it has neither a row break nor an
ampersand that does not stand directly after a backslash. -/
structure IsRow (r : Text) : Prop where
  ne_nil : r ≠ []
  unbroken : ¬rowMark <:+: r
  aligned : ∀ before after, r = before ++ '&' :: after → before.getLast? = some '\\'

variable {s t : Text} {slash : Bool} {c : Char}

/-! ### Alignment points -/

/-- Text after a backslash, if there is one, without two backslashes in a row. -/
structure Single (slash : Bool) (s : Text) : Prop where
  unbroken : ¬rowMark <:+: s
  head : slash = true → s.head? ≠ some '\\'

theorem single_of_unbroken (h : ¬rowMark <:+: s) : Single false s := ⟨h, fun hslash => absurd hslash Bool.false_ne_true⟩

theorem single_cons_iff : Single slash (c :: s) ↔ (slash = true → c ≠ '\\') ∧ Single (c == '\\') s := by
  have hprefix : rowMark <+: c :: s ↔ c = '\\' ∧ s.head? = some '\\' := by
    rw [rowMark, List.cons_prefix_cons, eq_comm]
    refine and_congr_right fun _ => ?_
    cases s <;> simp [eq_comm]
  constructor
  · rintro ⟨hunbroken, hhead⟩
    rw [List.infix_cons_iff, not_or, hprefix] at hunbroken
    exact ⟨fun h hc => hhead h (congrArg some hc), hunbroken.2,
      fun hc hs => hunbroken.1 ⟨beq_iff_eq.1 hc, hs⟩⟩
  · rintro ⟨hc, hunbroken, hhead⟩
    refine ⟨?_, fun h he => hc h (Option.some.inj he)⟩
    rw [List.infix_cons_iff, not_or, hprefix]
    exact ⟨fun h => hhead (beq_iff_eq.2 h.1) h.2, hunbroken⟩

/-- Without two backslashes in a row, no backslash is escaped. -/
theorem alignmentPoints_eq (h : Single slash s) : alignmentPoints slash s = pointsAsMacro slash s := by
  induction s generalizing slash with
  | nil => rfl
  | cons c s ih =>
    obtain ⟨hc, hs⟩ := single_cons_iff.1 h
    have hnext : (c == '\\' && !slash) = (c == '\\') := by
      cases slash with
      | false => exact Bool.and_true _
      | true => rw [beq_false_of_ne (hc rfl), Bool.false_and]
    rw [alignmentPoints, pointsAsMacro, hnext, ih hs]
    simp

/-- A macro makes no two backslashes in a row. -/
theorem Single.pointsAsMacro (h : Single slash s) : Single slash (pointsAsMacro slash s) := by
  induction s generalizing slash with
  | nil => exact h
  | cons c s ih =>
    obtain ⟨hc, hs⟩ := single_cons_iff.1 h
    rw [DisplayMath.pointsAsMacro]
    split
    · next hpoint =>
      obtain ⟨rfl, rfl⟩ := hpoint
      have hmacro : Single false ("\\amp ".toList ++ DisplayMath.pointsAsMacro ('&' == '\\') s) := by
        refine single_cons_iff.2 ⟨nofun, single_cons_iff.2 ⟨by decide, single_cons_iff.2 ⟨by decide,
          single_cons_iff.2 ⟨by decide, single_cons_iff.2 ⟨by decide, ih hs⟩⟩⟩⟩⟩
      exact hmacro
    · exact single_cons_iff.2 ⟨hc, ih hs⟩

/-- Each ampersand that is left stands directly after a backslash. -/
theorem slash_before_ampersand {before after : Text} (h : pointsAsMacro slash s = before ++ '&' :: after) :
    before.getLast? = some '\\' ∨ before = [] ∧ slash = true := by
  induction s generalizing slash before with
  | nil => simp [pointsAsMacro] at h
  | cons c s ih =>
    rw [pointsAsMacro] at h
    split at h
    · next hpoint =>
      have hc : ('&' == '\\') = false := by decide
      obtain ⟨more, rfl, hmore⟩ := exists_append_of_not_mem h.symm (by decide)
      rcases ih hmore with hlast | ⟨-, hslash⟩
      · exact .inl (by rw [List.getLast?_append, hlast]; rfl)
      · rw [hpoint.1, hc] at hslash
        cases hslash
    · next hpoint =>
      cases before with
      | nil =>
        refine .inr ⟨rfl, ?_⟩
        obtain rfl := (List.cons.inj h).1
        simpa using hpoint
      | cons d before =>
        obtain ⟨rfl, hmore⟩ := List.cons.inj h
        rcases ih hmore with hlast | ⟨rfl, hslash⟩
        · exact .inl (by rw [List.getLast?_cons, hlast]; rfl)
        · exact .inl (by rw [beq_iff_eq.1 hslash]; rfl)

theorem pointsAsMacro_ne_nil (h : s ≠ []) : pointsAsMacro slash s ≠ [] := by
  obtain ⟨c, s, rfl⟩ := List.exists_cons_of_ne_nil h
  rw [pointsAsMacro]
  split <;> exact List.cons_ne_nil _ _

theorem isRow_pointsAsMacro (hne : s ≠ []) (h : ¬rowMark <:+: s) : IsRow (pointsAsMacro false s) := by
  exact ⟨pointsAsMacro_ne_nil hne, (single_of_unbroken h).pointsAsMacro.unbroken, fun _ _ hsplit =>
    (slash_before_ampersand hsplit).resolve_right fun h => Bool.false_ne_true h.2⟩

/-! ### Ink -/

theorem pointsAsMacro_append : ∀ (s t : Text) (slash : Bool), pointsAsMacro slash (s ++ t) =
    pointsAsMacro slash s ++ pointsAsMacro ((s.getLast?.map (· == '\\')).getD slash) t
  | [], _, _ => rfl
  | c :: s, t, slash => by
    rw [List.cons_append, pointsAsMacro, pointsAsMacro, pointsAsMacro_append s t, List.append_assoc, List.getLast?_cons]
    cases s.getLast? <;> rfl

/-- The ink of a text with macros, word by word. -/
theorem ink_pointsAsMacro (s : Text) :
    ink (pointsAsMacro false s) = (words s).flatMap fun w => ink (pointsAsMacro false w) := by
  have hspace {c : Char} (hc : isSpace c) (s : Text) (slash : Bool) :
      ink (pointsAsMacro slash (c :: s)) = ink (pointsAsMacro false s) := by
    have hamp : c ≠ '&' := by
      rintro rfl
      cases hc
    have hslash : (c == '\\') = false := by
      refine beq_false_of_ne ?_
      rintro rfl
      cases hc
    rw [pointsAsMacro, if_neg fun h => hamp h.1, hslash]
    exact List.filter_cons_of_neg (by simp [hc])
  induction s using words_induct with
  | nil => rfl
  | space c s hc ih => rw [hspace hc, words_cons_space hc, ih]
  | word w hne hw => rw [words_eq_singleton hne hw, List.flatMap_singleton]
  | append w c s hne hw hc ih =>
    rw [pointsAsMacro_append, ink_append, hspace hc, words_word_append hne hw hc, List.flatMap_cons, ih]

/-- Between row breaks no backslash is left to escape what comes after the next one. -/
theorem pointsAsMacro_between {e : Division} (he : e.Leftmost (· = rowMark)) :
    pointsAsMacro false e.between.flatten = e.between.flatMap (pointsAsMacro false) := by
  induction e with
  | last t => simp [Division.between]
  | next t m more ih =>
    have hlast : (t.getLast?.map (· == '\\')).getD false = false := by
      rcases List.eq_nil_or_concat' t with rfl | ⟨t, c, rfl⟩
      · rfl
      · rw [List.getLast?_concat, Option.map_some, Option.getD_some]
        refine beq_false_of_ne ?_
        rintro rfl
        obtain ⟨hunmatched, rfl, -⟩ := he
        exact hunmatched.not_prefix rfl ⟨['\\'] ++ more.text, rfl⟩
    rw [Division.between, List.flatten_cons, pointsAsMacro_append, hlast, ih he.2.2, List.flatMap_cons]

/-! ### What is kept -/

/-- A text without wrappers is divided by its double backslashes; its rows are made of
the texts between, as far as the ink goes. -/
theorem exists_rowMarks (s : Text) : ∃ e : Division, e.text = dropEnvironments s ∧ e.Leftmost (· = rowMark) ∧
    (∀ r ∈ rowsOf s, IsRow r) ∧ ink (rowsOf s).flatten = ink (pointsAsMacro false e.between.flatten) ∧
    (rowsOf s = [] → ink e.between.flatten = []) := by
  obtain ⟨e, htext, he⟩ := Division.exists_leftmost (P := (· = rowBreak (dropEnvironments s)))
    (fun m hm => hm ▸ rowBreak_ne_nil _) (dropEnvironments s)
  rw [← htext] at he
  obtain ⟨parts, hrows, hwords, hne⟩ := exists_parts htext he
  have hmark : rowMark ≠ [] ∧ ∀ d ∈ rowMark, isSpace d = false := ⟨List.cons_ne_nil _ _, by decide⟩
  have hbetween : ∀ t ∈ e.between, ¬rowMark <:+: t := by
    intro t ht hinfix
    have hplain : rowMark <:+: e.text := hinfix.trans (Division.infix_of_mem_between ht)
    rw [rowBreak_marked hplain] at he
    exact he.not_stands hmark.1 t ht hinfix
  have hparts : ∀ p ∈ parts, ¬rowMark <:+: p := by
    intro p hp hinfix
    obtain ⟨w, hw, hinfix⟩ := (infix_iff_words hmark.1 hmark.2).1 hinfix
    have hmem : words p ∈ (e.between.map words).filter (!·.isEmpty) := hwords ▸ List.mem_map_of_mem hp
    obtain ⟨t, ht, htp⟩ := List.mem_map.1 (List.mem_filter.1 hmem).1
    exact hbetween t ht ((infix_iff_words hmark.1 hmark.2).2 ⟨w, htp ▸ hw, hinfix⟩)
  have halign : parts.map (alignmentPoints false) = parts.map (pointsAsMacro false) :=
    List.map_congr_left fun p hp => alignmentPoints_eq (single_of_unbroken (hparts p hp))
  -- The words of the rows are those between the breaks, and so is the ink.
  have hink : ink (rowsOf s).flatten = e.between.flatMap fun t => ink (pointsAsMacro false t) := by
    have hflat : parts.flatMap words = e.between.flatMap words := by
      rw [List.flatMap_def, hwords, List.flatten_filter_not_isEmpty, List.flatMap_def]
    rw [hrows, halign, ink_flatten, List.map_map]
    have hpart (ts : List Text) : (ts.flatMap fun t => ink (pointsAsMacro false t)) =
        (ts.flatMap words).flatMap fun w => ink (pointsAsMacro false w) := by
      rw [List.flatMap_assoc]
      exact List.flatMap_congr fun t _ => ink_pointsAsMacro t
    exact (hpart parts).trans ((congrArg _ hflat).trans (hpart e.between).symm)
  have hblank : rowsOf s = [] → ∀ t ∈ e.between, ink t = [] := by
    intro hnil t ht
    rw [hrows, List.map_eq_nil_iff] at hnil
    rw [hnil, List.map_nil, eq_comm, List.filter_eq_nil_iff] at hwords
    have hempty := hwords (words t) (List.mem_map_of_mem ht)
    exact words_eq_nil_iff.1 (by simpa using hempty)
  have hrow : ∀ r ∈ rowsOf s, IsRow r := by
    rw [hrows, halign]
    exact List.forall_mem_map.2 fun p hp => isRow_pointsAsMacro (hne p hp) (hparts p hp)
  by_cases hplain : rowMark <:+: e.text
  · rw [rowBreak_marked hplain] at he
    refine ⟨e, htext, he, hrow, ?_, fun hnil => ?_⟩
    · rw [hink, pointsAsMacro_between he, ink, List.filter_flatMap]
      rfl
    · rw [ink_flatten, List.flatten_eq_nil_iff, List.forall_mem_map]
      exact hblank hnil
  · have hlines : e.Leftmost (· = ['\n']) := by rwa [rowBreak_unmarked hplain] at he
    have hwhole := hlines.words_eq (by decide)
    refine ⟨.last e.text, htext, unmatched_of_not_infix hplain, hrow, ?_, fun hnil => ?_⟩
    · rw [hink, Division.between, List.flatten_singleton, ink_pointsAsMacro, hwhole, List.flatMap_assoc]
      exact List.flatMap_congr fun t _ => ink_pointsAsMacro t
    · rw [Division.between, List.flatten_singleton, ← words_eq_nil_iff, hwhole, List.flatMap_eq_nil_iff]
      exact fun t ht => words_eq_nil_iff.2 (hblank hnil t ht)

/-- **Display math loses nothing.** It is one expression exactly if one row of the
source is not blank and has neither a row break nor an ampersand, and then it is that
row. Else the lines of the source are divided by the wrappers, and what stands between
these by the double backslashes. The rows, of which there is at least one, have the ink
of what is left, with macros for the ampersands that do not stand directly after a
backslash. Only where no ink is left there is nothing. -/
theorem ofRows?_keeps (source : List Text) :
    (∀ tex, ofRows? source = some (.single tex) ↔
      ∃ row, source.filter (!isBlank ·) = [row] ∧ ¬rowMark <:+: row ∧ '&' ∉ row ∧ tex = trim row) ∧
    ∃ d e : Division, d.text = text source ∧ d.Leftmost IsWrapper ∧ e.text = d.between.flatten ∧
      e.Leftmost (· = rowMark) ∧
      (∀ rs, ofRows? source = some (.rows rs) → rs ≠ [] ∧ (∀ r ∈ rs, IsRow r) ∧
        ink rs.flatten = ink (pointsAsMacro false e.between.flatten)) ∧
      (ofRows? source = none → ink e.between.flatten = []) := by
  refine ⟨fun tex => ofRows?_eq_single_iff, ?_⟩
  obtain ⟨d, htext, hd⟩ := Division.exists_leftmost (fun m (hm : IsWrapper m) => hm.ne_nil) (text source)
  obtain ⟨e, hplain, he, hrow, hink, hnil⟩ := exists_rowMarks (text source)
  rw [← htext, dropEnvironments_text hd] at hplain
  refine ⟨d, e, htext, hd, hplain, he, fun rs hrs => ?_, fun hnone => hnil (rowsOf_of_ofRows?_eq_none hnone)⟩
  obtain ⟨-, rfl, hne⟩ := ofRows?_eq_rows_iff.1 hrs
  exact ⟨hne, hrow, hink⟩

end QuartoPretext.DisplayMath
