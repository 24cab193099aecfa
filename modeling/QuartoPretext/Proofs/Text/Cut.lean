/-
# Texts cut where they were put together

A text that is put together around a mark, or at a character of a class, is cut
there again, if nothing before the seam is cut first.

Key theorems: `Text.dropPrefix?_eq_some_iff`, `Text.between?_append`,
`Text.span_append`, `Text.cutWhere?_append`, `Text.pieces_append`,
`Text.words_append`, `Text.trim_of_bare`.
-/
import QuartoPretext.Proofs.Block.Bare
import QuartoPretext.Proofs.Text.Characters
import Mathlib.Data.List.Basic
import Mathlib.Data.List.TakeWhile

namespace QuartoPretext.Text

variable {s t mark : Text} {p : Char → Bool} {c : Char}

/-! ### Beginnings and ends -/

theorem dropPrefix?_append : ∀ mark rest : Text, dropPrefix? mark (mark ++ rest) = some rest
  | [], rest => rfl
  | c :: mark, rest => by
    rw [List.cons_append, dropPrefix?, if_pos (beq_self_eq_true c), dropPrefix?_append mark rest]

theorem dropPrefix?_eq_some_iff : dropPrefix? mark s = some t ↔ s = mark ++ t :=
  ⟨fun h => (append_eq_of_dropPrefix? h).symm, fun h => h ▸ dropPrefix?_append mark t⟩

theorem dropSuffix?_eq_some_iff : dropSuffix? mark s = some t ↔ s = t ++ mark := by
  constructor
  · intro h
    obtain ⟨r, hr, rfl⟩ := Option.map_eq_some_iff.1 h
    rw [← List.reverse_reverse s, dropPrefix?_eq_some_iff.1 hr, List.reverse_append, List.reverse_reverse]
  · rintro rfl
    rw [dropSuffix?, List.reverse_append, dropPrefix?_append, Option.map_some, List.reverse_reverse]

theorem between?_append (first last s : Text) : between? first last (first ++ (s ++ last)) = some s := by
  rw [between?, dropPrefix?_append, Option.bind_some, dropSuffix?_eq_some_iff]

/-! ### Characters of a class -/

/-- A text divided where the characters of a class that it starts with end. -/
theorem span_append (hs : ∀ c ∈ s, p c = true) (ht : ∀ c ∈ t.head?, p c = false) :
    (s ++ t).takeWhile p = s ∧ (s ++ t).dropWhile p = t := by
  rw [List.takeWhile_append_of_pos hs, List.dropWhile_append_of_pos hs]
  cases t with
  | nil => simp
  | cons c t =>
    have hc : ¬p c = true := by simp [ht c rfl]
    rw [List.takeWhile_cons_of_neg hc, List.dropWhile_cons_of_neg hc, List.append_nil]
    exact ⟨rfl, rfl⟩

theorem dropWhile_of_head (h : ∀ c ∈ s.head?, p c = false) : s.dropWhile p = s :=
  (span_append (s := []) nofun h).2

theorem trimEnd_append {s : Text} (hs : EndsBare s) (t : Text) : trimEnd (s ++ t) = s ++ trimEnd t := by
  have hs' : (s.reverse.dropWhile isSpace).reverse = s := (endsBare_iff s).1 hs
  rw [trimEnd, trimEnd, List.reverse_append, List.dropWhile_append]
  split
  · next h => rw [hs', List.isEmpty_iff.1 h, List.reverse_nil, List.append_nil]
  · rw [List.reverse_append, List.reverse_reverse]

theorem exists_trimEnd_append (s : Text) : ∃ gap, s = trimEnd s ++ gap ∧ ∀ c ∈ gap, isSpace c := by
  refine ⟨(s.reverse.takeWhile isSpace).reverse, ?_, fun c hc => List.mem_takeWhile_imp (List.mem_reverse.1 hc)⟩
  rw [trimEnd, ← List.reverse_append, List.takeWhile_append_dropWhile, List.reverse_reverse]

theorem EndsBare.prepend (h : EndsBare t) (hne : t ≠ []) (s : Text) : EndsBare (s ++ t) :=
  fun c hc => h c (by rwa [List.getLast?_append_of_ne_nil s hne] at hc)

theorem endsBare_concat (s : Text) (hc : isSpace c = false) : EndsBare (s ++ [c]) := by
  intro d hd
  rw [List.getLast?_concat] at hd
  exact Option.some.inj hd ▸ hc

/-- A text with no white space at its two ends. -/
theorem trim_of_bare (hhead : ∀ c ∈ s.head?, isSpace c = false) (hend : EndsBare s) : trim s = s := by
  rw [trim, trimStart, dropWhile_of_head hhead, (endsBare_iff s).1 hend]

theorem cutWhere?_append (hc : p c) : ∀ {s : Text}, (∀ d ∈ s, p d = false) → cutWhere? p (s ++ c :: t) = some (s, t)
  | [], _ => by simp [cutWhere?, hc]
  | d :: s, h => by
    rw [List.cons_append, cutWhere?, h d List.mem_cons_self,
      cutWhere?_append hc fun e he => h e (List.mem_cons_of_mem d he)]
    rfl

theorem append_of_cutWhere? : ∀ {s a b : Text}, cutWhere? p s = some (a, b) → ∃ c, p c ∧ s = a ++ c :: b
  | [], _, _, h => by cases h
  | c :: s, a, b, h => by
    unfold cutWhere? at h
    split at h
    · next hc =>
      cases h
      exact ⟨c, hc, rfl⟩
    · obtain ⟨⟨a', b'⟩, h', e⟩ := Option.map_eq_some_iff.1 h
      cases e
      obtain ⟨d, hd, rfl⟩ := append_of_cutWhere? h'
      exact ⟨d, hd, rfl⟩

theorem cutWhere?_eq_none (h : ∀ c ∈ s, p c = false) : cutWhere? p s = none := by
  rw [Option.eq_none_iff_forall_not_mem]
  rintro ⟨a, b⟩ hcut
  obtain ⟨c, hc, rfl⟩ := append_of_cutWhere? hcut
  have hnot := h c (List.mem_append_right a List.mem_cons_self)
  rw [hc] at hnot
  cases hnot

/-! ### Pieces and words -/

theorem pieces_ne_nil (p : Char → Bool) : ∀ s : Text, pieces p s ≠ []
  | [] => by simp [pieces]
  | c :: s => by
    rw [pieces]
    split
    · simp
    · split <;> simp

theorem pieces_append (hc : p c) (t : Text) : ∀ s : Text, pieces p (s ++ c :: t) = pieces p s ++ pieces p t
  | [] => by simp [pieces, hc]
  | d :: s => by
    rw [List.cons_append, pieces, pieces, pieces_append hc t s]
    split
    · rfl
    · cases hs : pieces p s with
      | nil => exact absurd hs (pieces_ne_nil p s)
      | cons piece more => rfl

theorem pieces_eq_singleton : ∀ {s : Text}, (∀ c ∈ s, p c = false) → pieces p s = [s]
  | [], _ => rfl
  | c :: s, h => by
    obtain ⟨hc, hs⟩ := List.forall_mem_cons.1 h
    rw [pieces, if_neg (by simp [hc]), pieces_eq_singleton hs]

theorem words_append (hc : isSpace c) (s t : Text) : words (s ++ c :: t) = words s ++ words t := by
  rw [words, pieces_append hc, List.filter_append, words, words]

theorem words_eq_singleton (hne : s ≠ []) (hs : ∀ c ∈ s, isSpace c = false) : words s = [s] := by
  rw [words, pieces_eq_singleton hs]
  simp [hne]

end QuartoPretext.Text
