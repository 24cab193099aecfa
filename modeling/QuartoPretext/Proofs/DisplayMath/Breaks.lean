/-
# Where display math breaks into rows

The lines of display math are taken as one text. It is divided by the starts and ends
of aligning environments, which go, and what is left is divided by its row breaks: the
double backslashes, or else the line feeds. The rows are the stretches between the
breaks, blank ones aside, with their words as they are and the alignment points
written as a macro.

Key definitions: `DisplayMath.text`, `DisplayMath.IsWrapper`, `DisplayMath.rowBreak`.
Key theorems: `DisplayMath.dropEnvironments_text`, `DisplayMath.splitRows_text`,
`DisplayMath.exists_parts`, `DisplayMath.ofRows?_eq_single_iff`,
`DisplayMath.ofRows?_eq_rows_iff`.
-/
import QuartoPretext.Document.DisplayMath
import QuartoPretext.Proofs.Inline.Fragment
import QuartoPretext.Proofs.Text.Words

namespace QuartoPretext

namespace Text

variable {α : Type} {P : Text → Prop} {s t rest mark m : Text} {c : Char}

/-! ### Divisions by marks -/

/-- A function that takes the matches of a pattern off a text, as a recogniser. -/
theorem recognises_map {take? : Text → Option Text} (h : ∀ s rest, take? s = some rest ↔ ∃ m, P m ∧ s = m ++ rest)
    (xs : List α) : Recognises P (fun _ => xs) (fun t => (take? t).map fun rest => (xs, rest)) := by
  intro s ys rest
  rw [Option.map_eq_some_iff]
  constructor
  · rintro ⟨rest, hrest, he⟩
    cases he
    obtain ⟨m, hm, hs⟩ := (h s rest).1 hrest
    exact ⟨m, hm, hs, rfl⟩
  · rintro ⟨m, hm, hs, rfl⟩
    exact ⟨rest, (h s rest).2 ⟨m, hm, hs⟩, rfl⟩

theorem dropPrefix?_eq_some_iff_exists (mark s rest : Text) :
    dropPrefix? mark s = some rest ↔ ∃ m, m = mark ∧ s = m ++ rest := by
  rw [dropPrefix?_eq_some_iff]
  simp

theorem isSome_cut?_iff (hne : mark ≠ []) : (cut? mark s).isSome ↔ mark <:+: s := by
  constructor
  · intro h
    obtain ⟨⟨before, after⟩, hcut⟩ := Option.isSome_iff_exists.1 h
    exact ⟨before, after, append_eq_of_cut? hcut⟩
  · induction s with
    | nil => exact fun h => absurd (List.infix_nil.1 h) hne
    | cons c s ih =>
      intro h
      rw [cut?]
      cases hdrop : dropPrefix? mark (c :: s) with
      | some rest => rfl
      | none =>
        have hs : mark <:+: s := by
          refine (List.infix_cons_iff.1 h).resolve_left ?_
          rintro ⟨rest, hrest⟩
          rw [← hrest, dropPrefix?_append] at hdrop
          cases hdrop
        obtain ⟨found, hfound⟩ := Option.isSome_iff_exists.1 (ih hs)
        rw [hfound]
        rfl

/-- Where a mark stands nowhere, no division has a stretch of it. -/
theorem unmatched_of_not_infix : ∀ {t : Text}, ¬mark <:+: t → Unmatched (· = mark) t []
  | [], _ => trivial
  | c :: t, h => by
    rw [List.infix_cons_iff, not_or] at h
    refine ⟨?_, unmatched_of_not_infix h.2⟩
    rintro _ rfl
    rw [List.append_nil]
    exact h.1

theorem Unmatched.not_stands (hm : P m) (hne : m ≠ []) : ∀ {t : Text}, Unmatched P t rest → ¬m <:+: t
  | [], _, h => hne (List.infix_nil.1 h)
  | c :: t, hu, h => by
    rcases List.infix_cons_iff.1 h with h | h
    · exact hu.1 m hm (h.trans (List.prefix_append _ rest))
    · exact hu.2.not_stands hm hne h

instance (mark s : Text) : Decidable (∀ m, m = mark → ¬m <+: s) :=
  decidable_of_iff (¬mark <+: s) ⟨fun h _ hm => hm ▸ h, fun h => h mark rfl⟩

namespace Division

variable {d : Division}

theorem Leftmost.not_stands (hne : mark ≠ []) (hd : d.Leftmost (· = mark)) : ∀ t ∈ d.between, ¬mark <:+: t := by
  induction d with
  | last t => exact List.forall_mem_singleton.2 (Unmatched.not_stands (P := (· = mark)) rfl hne hd)
  | next t m more ih => exact List.forall_mem_cons.2 ⟨Unmatched.not_stands (P := (· = mark)) rfl hne hd.1, ih hd.2.2⟩

theorem map_nil_found {β : Type} (f : Text → List β) (d : Division) : d.map f (fun _ => []) = d.between.flatMap f := by
  induction d with
  | last t => simp [map, between]
  | next t m more ih => simp [map, between, ih]

/-- A text that is divided by a character falls into its pieces. -/
theorem Leftmost.pieces_eq (hd : d.Leftmost (· = [c])) : pieces (· == c) d.text = d.between := by
  have hpieces {t : Text} (ht : ¬[c] <:+: t) : pieces (· == c) t = [t] := by
    refine pieces_eq_singleton fun e he => beq_false_of_ne ?_
    rintro rfl
    obtain ⟨before, after, rfl⟩ := List.append_of_mem he
    exact ht ⟨before, after, by simp⟩
  have hbetween := hd.not_stands (List.cons_ne_nil c [])
  induction d with
  | last t => exact hpieces (hbetween t List.mem_cons_self)
  | next t m more ih =>
    obtain ⟨ht, hmore⟩ := List.forall_mem_cons.1 hbetween
    obtain rfl : m = [c] := hd.2.1
    rw [text_next, List.append_assoc, List.singleton_append, pieces_append (p := (· == c)) (beq_self_eq_true c),
      hpieces ht, ih hd.2.2 hmore]
    rfl

/-- A text that is divided by white space has the words of the stretches between. -/
theorem Leftmost.words_eq (hc : isSpace c) (hd : d.Leftmost (· = [c])) : words d.text = d.between.flatMap words := by
  induction d with
  | last t => simp [between]
  | next t m more ih =>
    obtain rfl : m = [c] := hd.2.1
    rw [text_next, List.append_assoc, List.singleton_append, words_append hc, ih hd.2.2]
    rfl

end Division
end Text

namespace DisplayMath

open Text

/-! ### The text of display math -/

/-- The rows that are not blank, without the white space around them, on a line each. -/
def text (source : List Text) : Text := joinWith ['\n'] ((source.map trim).filter (!·.isEmpty))

/-- What stands after the backslash of a wrapper, up to its name. -/
def keywords : List Text := ["begin\x7b", "end\x7b"].map String.toList

/-- The environments that only align. -/
def alignNames : List Text := ["aligned", "aligned*", "align", "align*"].map String.toList

/-- The start or the end of an environment that only aligns. -/
def IsWrapper (m : Text) : Prop := ∃ k ∈ keywords, ∃ a ∈ alignNames, m = '\\' :: (k ++ (a ++ ['\x7d']))

/-- What separates the rows of a text: double backslashes, or line feeds if it has none. -/
def rowBreak (plain : Text) : Text := if hasRowMark plain then rowMark else ['\n']

theorem words_text (source : List Text) : words (text source) = source.flatMap words := by
  rw [text, words_joinWith (by decide)]
  induction source with
  | nil => rfl
  | cons row source ih =>
    rw [List.map_cons, List.flatMap_cons, ← words_trim row, ← ih]
    cases trim row with
    | nil => rfl
    | cons c t => rfl

/-! ### Wrappers -/

theorem environment?_eq_some_iff (s rest : Text) : environment? s = some rest ↔ ∃ m, IsWrapper m ∧ s = m ++ rest := by
  constructor
  · intro h
    unfold environment? at h
    simp only at h
    split at h
    · cases h
    next afterWord hword =>
    split at h
    · cases h
    next afterName hname =>
    obtain ⟨k, hk, rfl⟩ : ∃ k ∈ keywords, s = '\\' :: (k ++ afterWord) := by
      rcases (Option.orElse_eq_some _ _ _).1 hword with hword | ⟨-, hword⟩
      · exact ⟨_, List.mem_cons_self, dropPrefix?_eq_some_iff.1 hword⟩
      · exact ⟨_, List.mem_cons_of_mem _ List.mem_cons_self, dropPrefix?_eq_some_iff.1 hword⟩
    obtain ⟨star, hstar, rfl⟩ : ∃ star, (star = [] ∨ star = ['*']) ∧ afterName = star ++ '\x7d' :: rest := by
      have hclose := dropPrefix?_eq_some_iff.1 h
      cases hdrop : dropPrefix? ['*'] afterName with
      | none =>
        rw [hdrop] at hclose
        exact ⟨[], .inl rfl, hclose⟩
      | some more =>
        rw [hdrop] at hclose
        exact ⟨['*'], .inr rfl, by rw [dropPrefix?_eq_some_iff.1 hdrop]; exact congrArg _ hclose⟩
    obtain ⟨name, hcase, rfl⟩ : ∃ name, (name = "aligned".toList ∨ name = "align".toList) ∧
        afterWord = name ++ (star ++ '\x7d' :: rest) := by
      rcases (Option.orElse_eq_some _ _ _).1 hname with hname | ⟨-, hname⟩
      · exact ⟨_, .inl rfl, dropPrefix?_eq_some_iff.1 hname⟩
      · exact ⟨_, .inr rfl, dropPrefix?_eq_some_iff.1 hname⟩
    refine ⟨'\\' :: (k ++ (name ++ star ++ ['\x7d'])), ⟨k, hk, name ++ star, ?_, rfl⟩, by simp⟩
    rcases hcase with rfl | rfl <;> rcases hstar with rfl | rfl <;> decide
  · rintro ⟨_, ⟨k, hk, a, ha, rfl⟩, rfl⟩
    simp only [keywords, alignNames, List.map_cons, List.map_nil, List.mem_cons, List.not_mem_nil, or_false] at hk ha
    rcases hk with rfl | rfl <;> rcases ha with rfl | rfl | rfl | rfl <;> rfl

theorem IsWrapper.ne_nil {m : Text} (h : IsWrapper m) : m ≠ [] := by
  obtain ⟨k, -, a, -, rfl⟩ := h
  exact List.cons_ne_nil _ _

instance : DecidablePred IsWrapper := fun m =>
  inferInstanceAs (Decidable (∃ k ∈ keywords, ∃ a ∈ alignNames, m = '\\' :: (k ++ (a ++ ['\x7d']))))

instance (s : Text) : Decidable (∀ m, IsWrapper m → ¬m <+: s) :=
  decidable_of_iff (environment? s = none) (by
    simp only [Option.eq_none_iff_forall_ne_some, Ne, environment?_eq_some_iff]
    constructor
    · rintro h m hm ⟨rest, rfl⟩
      exact h rest ⟨m, hm, rfl⟩
    · rintro h rest ⟨m, hm, rfl⟩
      exact h m hm (List.prefix_append m rest))

/-- A text without its wrappers is what stands between them. -/
theorem dropEnvironments_text {d : Division} (hd : d.Leftmost IsWrapper) :
    dropEnvironments d.text = d.between.flatten := by
  have hscan : scan id (fun t => (environment? t).map fun rest => ([], rest)) d.text = d.map (List.map id) fun _ => [] :=
    Division.scan_text (recognises_map environment?_eq_some_iff []) (fun m hm => hm.ne_nil) hd
  rw [Division.map_nil_found] at hscan
  rw [dropEnvironments, hscan, List.map_id_fun, List.flatMap_id]

/-! ### Row breaks -/

theorem hasRowMark_iff {s : Text} : hasRowMark s ↔ rowMark <:+: s := isSome_cut?_iff (List.cons_ne_nil _ _)

theorem stretches_append (t : Text) : ∀ (xs : List (Option Char)) {piece : Text} {more : List Text},
    stretches xs = piece :: more → stretches (t.map some ++ xs) = (t ++ piece) :: more := by
  induction t with
  | nil => exact fun _ _ _ h => h
  | cons c t ih =>
    intro xs piece more h
    rw [List.map_cons, List.cons_append, stretches, ih xs h]
    rfl

theorem stretches_division (e : Division) : stretches (e.map (List.map some) fun _ => [none]) = e.between := by
  induction e with
  | last t =>
    have h : stretches (t.map some ++ []) = [t ++ []] := stretches_append t [] rfl
    rwa [List.append_nil, List.append_nil] at h
  | next t m more ih =>
    have h : stretches (none :: more.map (List.map some) fun _ => [none]) = [] :: more.between := congrArg ([] :: ·) ih
    rw [Division.map, List.append_assoc, List.singleton_append, stretches_append t _ h, List.append_nil]
    rfl

theorem splitRows_text {e : Division} (he : e.Leftmost (· = rowMark)) : splitRows e.text = e.between := by
  have hscan : scan some (fun t => (dropPrefix? rowMark t).map fun rest => ([none], rest)) e.text =
      e.map (List.map some) fun _ => [none] :=
    Division.scan_text (recognises_map (dropPrefix?_eq_some_iff_exists rowMark) [none])
      (fun m hm => hm ▸ List.cons_ne_nil _ _) he
  rw [splitRows, hscan, stretches_division]

/-- Texts that are brought into another form with the same words, without the blank ones. -/
theorem map_words_filter {f : Text → Text} (hf : ∀ t, words (f t) = words t) (hnil : ∀ t, f t = [] ↔ words t = [])
    (ts : List Text) : ((ts.map f).filter (!·.isEmpty)).map words = (ts.map words).filter (!·.isEmpty) := by
  induction ts with
  | nil => rfl
  | cons t ts ih =>
    have hempty : (f t).isEmpty = (words t).isEmpty := by
      rw [Bool.eq_iff_iff, List.isEmpty_iff, List.isEmpty_iff]
      exact hnil t
    rw [List.map_cons, List.map_cons, List.filter_cons, List.filter_cons, hempty]
    split
    · rw [List.map_cons, hf, ih]
    · exact ih

theorem eq_nil_of_words {s : Text} (h : words s = []) (hs : trim s = s) : s = [] := by
  rw [words_eq_nil_iff] at h
  have hspace : ∀ c ∈ s, isSpace c := by simpa [ink] using h
  have hstart : trimStart s = [] := List.dropWhile_eq_nil_iff.2 hspace
  rw [← hs, trim, hstart]
  rfl

theorem rowBreak_marked {s : Text} (h : rowMark <:+: s) : rowBreak s = rowMark := if_pos (hasRowMark_iff.2 h)

theorem rowBreak_unmarked {s : Text} (h : ¬rowMark <:+: s) : rowBreak s = ['\n'] := if_neg (mt hasRowMark_iff.1 h)

theorem rowBreak_ne_nil (plain : Text) : rowBreak plain ≠ [] := by
  unfold rowBreak
  split <;> exact List.cons_ne_nil _ _

/-- The rows of a text are what stands between its row breaks, blank stretches aside,
word by word. -/
theorem exists_parts {s : Text} {e : Division} (htext : e.text = dropEnvironments s) (he : e.Leftmost (· = rowBreak e.text)) :
    ∃ parts : List Text, rowsOf s = parts.map (alignmentPoints false) ∧
      parts.map words = (e.between.map words).filter (!·.isEmpty) ∧ ∀ p ∈ parts, p ≠ [] := by
  by_cases hmark : rowMark <:+: e.text
  · have hrows : e.Leftmost (· = rowMark) := by rwa [rowBreak_marked hmark] at he
    refine ⟨(e.between.map fun r => joinWith [' '] (words r)).filter (!·.isEmpty), ?_, ?_, ?_⟩
    · simp only [rowsOf, ← htext, if_pos (hasRowMark_iff.2 hmark), splitRows_text hrows]
    · refine map_words_filter words_joinWith_words (fun t => ⟨fun h => ?_, fun h => ?_⟩) _
      · rw [← words_joinWith_words, h]
        rfl
      · rw [h]
        rfl
    · exact fun p hp => by simpa using (List.mem_filter.1 hp).2
  · have hlines : e.Leftmost (· = ['\n']) := by rwa [rowBreak_unmarked hmark] at he
    refine ⟨((lines e.text).map trim).filter (!·.isEmpty), ?_, ?_, ?_⟩
    · simp only [rowsOf, ← htext, if_neg (mt hasRowMark_iff.1 hmark)]
    · rw [← hlines.pieces_eq, ← words_lines]
      refine map_words_filter words_trim (fun t => ⟨fun h => ?_, fun h => ?_⟩) _
      · rw [← words_trim, h]
        rfl
      · exact eq_nil_of_words ((words_trim t).trans h) (trim_trim t)
    · exact fun p hp => by simpa using (List.mem_filter.1 hp).2

/-! ### What the rows of the source become -/

variable {source rs : List Text} {tex : Text}

theorem isEmpty_trim (s : Text) : (trim s).isEmpty = isBlank s := by
  rw [Bool.eq_iff_iff, List.isEmpty_iff, isBlank, List.all_eq_true]
  constructor
  · intro h
    have hink : ink s = [] := by rw [← ink_trim, h]; rfl
    simpa [ink] using hink
  · intro h
    have hstart : trimStart s = [] := List.dropWhile_eq_nil_iff.2 h
    rw [trim, hstart]
    rfl

theorem filter_trim (source : List Text) :
    (source.map trim).filter (!·.isEmpty) = (source.filter (!isBlank ·)).map trim := by
  rw [List.filter_map]
  refine congrArg (List.map trim) (List.filter_congr fun s _ => ?_)
  rw [Function.comp, isEmpty_trim]

theorem rowMark_infix_trim (s : Text) : rowMark <:+: trim s ↔ rowMark <:+: s := by
  have hne : rowMark ≠ [] := List.cons_ne_nil _ _
  have hink : ∀ d ∈ rowMark, isSpace d = false := by decide
  rw [infix_iff_words hne hink, words_trim, ← infix_iff_words hne hink]

theorem ampersand_mem_trim (s : Text) : '&' ∈ trim s ↔ '&' ∈ s := by
  have hink (s : Text) : '&' ∈ ink s ↔ '&' ∈ s := by
    rw [ink, List.mem_filter]
    exact and_iff_left (by decide)
  rw [← hink, ink_trim, hink]

/-- One expression is made of one row that is not blank and has neither a row break nor
an ampersand. -/
theorem ofRows?_eq_single_iff : ofRows? source = some (.single tex) ↔
    ∃ row, source.filter (!isBlank ·) = [row] ∧ ¬rowMark <:+: row ∧ '&' ∉ row ∧ tex = trim row := by
  rw [ofRows?, filter_trim]
  rcases source.filter (!isBlank ·) with _ | ⟨row, _ | ⟨next, more⟩⟩
  · simp
  · simp only [List.map_cons, List.map_nil, Bool.or_eq_true, hasRowMark_iff, rowMark_infix_trim, List.contains_eq_mem,
      decide_eq_true_eq, ampersand_mem_trim, List.cons.injEq, and_true, exists_eq_left']
    by_cases h : rowMark <:+: row ∨ '&' ∈ row
    · rw [if_pos h]
      constructor
      · intro hsome
        split at hsome <;> cases hsome
      · rintro ⟨hmark, hamp, -⟩
        exact absurd h (not_or.2 ⟨hmark, hamp⟩)
    · rw [if_neg h]
      obtain ⟨hmark, hamp⟩ := not_or.1 h
      simp [hmark, hamp, eq_comm]
  · simp only [List.map_cons]
    constructor
    · intro hsome
      split at hsome <;> cases hsome
    · rintro ⟨row', hrow, -⟩
      cases hrow

theorem rowsOf_nil : rowsOf [] = [] := by
  have hplain : dropEnvironments [] = [] := scan_nil
  rw [rowsOf, hplain]
  rfl

/-- Where display math is not one expression, it is the rows of its text, if it has any. -/
theorem ofRows?_of_not_single (h : ∀ tex, ofRows? source ≠ some (.single tex)) :
    ofRows? source = if (rowsOf (text source)).isEmpty then none else some (.rows (rowsOf (text source))) := by
  unfold ofRows? at h
  rw [ofRows?, text]
  generalize (source.map trim).filter (!·.isEmpty) = ls at h ⊢
  rcases ls with _ | ⟨tex, _ | ⟨next, more⟩⟩
  · have hnil : rowsOf (joinWith ['\n'] []) = [] := rowsOf_nil
    rw [hnil]
    rfl
  · rw [joinWith_singleton]
    by_cases hplain : (hasRowMark tex || tex.contains '&') = true
    · exact if_pos hplain
    · exact absurd (if_neg hplain) (h tex)
  · rfl

theorem ofRows?_eq_rows_iff : ofRows? source = some (.rows rs) ↔
    (∀ tex, ofRows? source ≠ some (.single tex)) ∧ rs = rowsOf (text source) ∧ rs ≠ [] := by
  by_cases hsingle : ∀ tex, ofRows? source ≠ some (.single tex)
  · rw [ofRows?_of_not_single hsingle]
    split
    · next hempty => simp [List.isEmpty_iff.1 hempty]
    · next hne =>
      rw [List.isEmpty_iff] at hne
      simp only [Option.some.injEq, rows.injEq]
      constructor
      · rintro rfl
        exact ⟨nofun, rfl, hne⟩
      · exact fun h => h.2.1.symm
  · simp only [hsingle, false_and, iff_false]
    intro hrows
    exact hsingle fun tex htex => by rw [hrows] at htex; cases htex

theorem rowsOf_of_ofRows?_eq_none (h : ofRows? source = none) : rowsOf (text source) = [] := by
  have hsingle : ∀ tex, ofRows? source ≠ some (.single tex) := fun tex => by rw [h]; exact nofun
  rw [ofRows?_of_not_single hsingle] at h
  split at h
  · next hempty => exact List.isEmpty_iff.1 hempty
  · cases h

end DisplayMath
end QuartoPretext
