/-
# A text by its words

The words of a text say all of it but its white space: they hold its ink, and a
stretch of ink that stands in the text stands in one of them. Trimming a text,
taking its lines apart and putting its words together again do not change them. What
a reader makes of a text is known word by word, as the text is white space, or a word
that ends it or goes on with white space.

Key theorems: `Text.words_induct`, `Text.words_joinWith`, `Text.words_trim`,
`Text.words_lines`, `Text.ink_eq_flatten_words`, `Text.infix_iff_words`.
-/
import QuartoPretext.Proofs.Document.Wrapped
import QuartoPretext.Proofs.Text.Division

namespace QuartoPretext.Text

variable {s t w m : Text} {ts : List Text} {c : Char}

@[simp] theorem words_nil : words [] = [] := rfl

/-- White space in front belongs to no word. -/
theorem words_cons_space (hc : isSpace c) (s : Text) : words (c :: s) = words s := by
  have h := words_append hc [] s
  rwa [words_nil] at h

theorem words_of_isSpace : ∀ {s : Text}, (∀ c ∈ s, isSpace c) → words s = []
  | [], _ => words_nil
  | c :: s, h => by
    obtain ⟨hc, hs⟩ := List.forall_mem_cons.1 h
    rw [words_cons_space hc, words_of_isSpace hs]

/-- A text is empty, or starts with white space, or is a word, or a word with white
space after it. -/
theorem words_induct {motive : Text → Prop} (nil : motive [])
    (space : ∀ c s, isSpace c → motive s → motive (c :: s))
    (word : ∀ w, w ≠ [] → (∀ d ∈ w, isSpace d = false) → motive w)
    (append : ∀ w c s, w ≠ [] → (∀ d ∈ w, isSpace d = false) → isSpace c → motive s → motive (w ++ c :: s))
    (s : Text) : motive s := by
  cases s with
  | nil => exact nil
  | cons d s =>
    by_cases hd : isSpace d
    · exact space d s hd (words_induct nil space word append s)
    · have hsplit : d :: s = (d :: s.takeWhile (!isSpace ·)) ++ s.dropWhile (!isSpace ·) := by
        rw [List.cons_append, List.takeWhile_append_dropWhile]
      have hword : ∀ e ∈ d :: s.takeWhile (!isSpace ·), isSpace e = false := by
        refine List.forall_mem_cons.2 ⟨by simpa using hd, fun e he => ?_⟩
        simpa using List.mem_takeWhile_imp he
      rw [hsplit]
      cases hrest : s.dropWhile (!isSpace ·) with
      | nil =>
        rw [List.append_nil]
        exact word _ (List.cons_ne_nil _ _) hword
      | cons c rest =>
        have hc : (!isSpace c) = false := of_mem_head_dropWhile (s := s) (by rw [hrest]; rfl)
        have hlength : rest.length < s.length :=
          Nat.lt_of_lt_of_le (Nat.lt_succ_self _) (hrest ▸ List.dropWhile_suffix (!isSpace ·)).length_le
        exact append _ c rest (List.cons_ne_nil _ _) hword (by simpa using hc)
          (words_induct nil space word append rest)
termination_by s.length
decreasing_by
  · exact Nat.lt_succ_self _
  · exact Nat.lt_succ_of_lt hlength

theorem words_word_append (hne : w ≠ []) (hw : ∀ d ∈ w, isSpace d = false) (hc : isSpace c) (s : Text) :
    words (w ++ c :: s) = w :: words s := by
  rw [words_append hc, words_eq_singleton hne hw, List.singleton_append]

/-- A word is not empty and holds no white space. -/
theorem of_mem_words : ∀ w ∈ words s, w ≠ [] ∧ ∀ d ∈ w, isSpace d = false := by
  induction s using words_induct with
  | nil => exact List.forall_mem_nil _
  | space c s hc ih => rwa [words_cons_space hc]
  | word w hne hw =>
    rw [words_eq_singleton hne hw]
    exact List.forall_mem_singleton.2 ⟨hne, hw⟩
  | append w c s hne hw hc ih =>
    rw [words_word_append hne hw hc]
    exact List.forall_mem_cons.2 ⟨⟨hne, hw⟩, ih⟩

/-! ### Texts with the same words -/

theorem words_append_of_isSpace {gap : Text} (hgap : ∀ c ∈ gap, isSpace c) (s : Text) : words (s ++ gap) = words s := by
  cases gap with
  | nil => rw [List.append_nil]
  | cons c gap =>
    obtain ⟨hc, hgap⟩ := List.forall_mem_cons.1 hgap
    rw [words_append hc, words_of_isSpace hgap, List.append_nil]

theorem words_trimStart (s : Text) : words (trimStart s) = words s := by
  induction s with
  | nil => rfl
  | cons c s ih =>
    by_cases hc : isSpace c
    · rw [words_cons_space hc, ← ih, trimStart, trimStart, List.dropWhile_cons_of_pos hc]
    · rw [trimStart, List.dropWhile_cons_of_neg hc]

theorem words_trimEnd (s : Text) : words (trimEnd s) = words s := by
  obtain ⟨gap, hsplit, hgap⟩ := exists_trimEnd_append s
  rw [hsplit, words_append_of_isSpace hgap, ← hsplit]

theorem words_trim (s : Text) : words (trim s) = words s := by
  rw [trim, words_trimEnd, words_trimStart]

theorem words_dropReturn (s : Text) : words (dropReturn s) = words s := by
  rw [← words_trimEnd, trimEnd_dropReturn, words_trimEnd]

theorem joinWith_singleton (sep t : Text) : joinWith sep [t] = t := List.intercalate_singleton

theorem joinWith_cons (sep t u : Text) (ts : List Text) : joinWith sep (t :: u :: ts) = t ++ sep ++ joinWith sep (u :: ts) := by
  simp [joinWith, List.intercalate_cons_cons]

/-- The words of texts with white space between them. -/
theorem words_joinWith (hc : isSpace c) : ∀ ts : List Text, words (joinWith [c] ts) = ts.flatMap words
  | [] => rfl
  | [t] => by rw [joinWith_singleton, List.flatMap_singleton]
  | t :: u :: ts => by
    rw [joinWith_cons, List.append_assoc, List.singleton_append, words_append hc, words_joinWith hc (u :: ts)]
    rfl

theorem words_joinWith_words (s : Text) : words (joinWith [' '] (words s)) = words s := by
  have hsingle : ∀ w ∈ words s, words w = [w] := fun w hw =>
    words_eq_singleton (of_mem_words w hw).1 (of_mem_words w hw).2
  rw [words_joinWith (by decide), List.flatMap_congr hsingle, List.flatMap_singleton']

/-- The lines of a text, blank ones aside, by their words. -/
theorem words_lines (s : Text) : ((lines s).map words).filter (!·.isEmpty) =
    ((pieces (· == '\n') s).map words).filter (!·.isEmpty) := by
  obtain ⟨more, last, hpieces⟩ := (List.eq_nil_or_concat' (pieces (· == '\n') s)).resolve_left (pieces_ne_nil _ s)
  have hreturn : (more.map dropReturn).map words = more.map words := by
    rw [List.map_map]
    exact List.map_congr_left fun t _ => words_dropReturn t
  have hlast : ((if last.isEmpty then [] else [last]).map words).filter (!·.isEmpty) =
      ([last].map words).filter (!·.isEmpty) := by
    cases last with
    | nil => rfl
    | cons c t => rfl
  rw [lines, hpieces, List.dropLast_concat, List.getLastD_concat, List.map_append, List.map_append, List.filter_append,
    List.filter_append, hreturn, hlast]

/-! ### Ink -/

theorem ink_flatten (ts : List Text) : ink ts.flatten = (ts.map ink).flatten := List.filter_flatten

theorem ink_eq_self (h : ∀ d ∈ s, isSpace d = false) : ink s = s :=
  List.filter_eq_self.2 fun d hd => by rw [h d hd]; rfl

theorem ink_eq_flatten_words (s : Text) : ink s = (words s).flatten := by
  induction s using words_induct with
  | nil => rfl
  | space c s hc ih =>
    rw [words_cons_space hc, ← ih]
    exact List.filter_cons_of_neg (by simp [hc])
  | word w hne hw => rw [words_eq_singleton hne hw, ink_eq_self hw, List.flatten_singleton]
  | append w c s hne hw hc ih =>
    have hcons : ink (c :: s) = ink s := List.filter_cons_of_neg (by simp [hc])
    rw [words_word_append hne hw hc, ink_append, ink_eq_self hw, hcons, ih, List.flatten_cons]

theorem words_eq_nil_iff : words s = [] ↔ ink s = [] := by
  rw [ink_eq_flatten_words, List.flatten_eq_nil_iff]
  constructor
  · intro h
    rw [h]
    exact List.forall_mem_nil _
  · intro h
    refine List.eq_nil_iff_forall_not_mem.2 fun w hw => (of_mem_words w hw).1 (h w hw)

/-- A stretch without a character stands before it or after it. -/
theorem infix_append_cons_iff (hne : m ≠ []) (hc : c ∉ m) : m <:+: s ++ c :: t ↔ m <:+: s ∨ m <:+: t := by
  constructor
  · rintro ⟨before, after, h⟩
    rw [List.append_assoc] at h
    rcases List.append_eq_append_iff.1 h with ⟨reached, rfl, hreached⟩ | ⟨more, rfl, hmore⟩
    · obtain ⟨a, rfl, -⟩ := exists_append_of_not_mem hreached.symm hc
      exact .inl ⟨before, a, List.append_assoc before m a⟩
    · cases more with
      | nil =>
        obtain ⟨d, m, rfl⟩ := List.exists_cons_of_ne_nil hne
        exact absurd ((List.cons.inj hmore).1 ▸ List.mem_cons_self) hc
      | cons d more => exact .inr ⟨more, after, by rw [List.append_assoc]; exact (List.cons.inj hmore).2.symm⟩
  · rintro (h | h)
    · exact h.trans (List.prefix_append s _).isInfix
    · exact h.trans ((List.suffix_cons c t).trans (List.suffix_append s _)).isInfix

/-- A stretch of ink stands in one of the words. -/
theorem infix_iff_words (hne : m ≠ []) (hm : ∀ d ∈ m, isSpace d = false) : m <:+: s ↔ ∃ w ∈ words s, m <:+: w := by
  have hnil : ¬m <:+: [] := fun h => hne (List.infix_nil.1 h)
  have hnot {c : Char} (hc : isSpace c) : c ∉ m := fun hmem => by
    rw [hm c hmem] at hc
    cases hc
  induction s using words_induct with
  | nil => simp [hnil]
  | space c s hc ih =>
    have hacross := infix_append_cons_iff (s := []) (t := s) hne (hnot hc)
    rw [List.nil_append] at hacross
    rw [words_cons_space hc, hacross]
    simpa [hnil] using ih
  | word w hne' hw => simp [words_eq_singleton hne' hw]
  | append w c s hne' hw hc ih =>
    rw [words_word_append hne' hw hc, infix_append_cons_iff hne (hnot hc), List.exists_mem_cons_iff]
    exact or_congr_right ih

end QuartoPretext.Text
