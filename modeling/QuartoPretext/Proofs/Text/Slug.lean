/-
# Slugs

A slug is the longest runs of ASCII letters and digits of a text, in lower case, with a
hyphen between neighbours. It can be built from character to character: what is neither a
letter nor a digit becomes a hyphen, unless the slug has nothing yet or ends in one, and
the hyphen at the end is dropped. Each run of a slug is one of its words again, so a slug
is its own slug.

Key definitions: `Text.HasRuns`, `IsSlugWord`, `slugByChar`.
Key theorems: `Text.HasRuns.eq`, `runs_joinWith`, `foldl_pushSlug`, `slugify_canonical`.
-/
import Mathlib
import QuartoPretext.Profile
import QuartoPretext.Proofs.Text.Words

namespace QuartoPretext

namespace Text

variable {p : Char → Bool} {s w : Text} {ws ws' : List Text} {c : Char}

/-! ### HasRuns -/

/-- The longest runs of the characters of a class in a text, in order: behind each the text ends
or a character stands that is not of the class. -/
inductive HasRuns (p : Char → Bool) : Text → List Text → Prop
  | nil : HasRuns p [] []
  | skip {c : Char} {s : Text} {ws : List Text} : p c = false → HasRuns p s ws → HasRuns p (c :: s) ws
  | last {w : Text} : w ≠ [] → (∀ c ∈ w, p c = true) → HasRuns p w [w]
  | run {w : Text} {c : Char} {s : Text} {ws : List Text} : w ≠ [] → (∀ c ∈ w, p c = true) → p c = false →
      HasRuns p s ws → HasRuns p (w ++ c :: s) (w :: ws)

theorem HasRuns.exists (p : Char → Bool) : ∀ s : Text, ∃ ws, HasRuns p s ws
  | [] => ⟨[], .nil⟩
  | c :: s => by
    obtain ⟨ws, h⟩ := HasRuns.exists p s
    cases hc : p c with
    | false => exact ⟨ws, h.skip hc⟩
    | true =>
      -- the character makes a run or stands in front of the first one
      have hone : ∀ d ∈ [c], p d = true := List.forall_mem_singleton.2 hc
      cases h with
      | nil => exact ⟨[[c]], .last (List.cons_ne_nil _ _) hone⟩
      | skip hd h => exact ⟨[c] :: ws, .run (List.cons_ne_nil _ _) hone hd h⟩
      | last hne hw => exact ⟨[c :: s], .last (List.cons_ne_nil _ _) (List.forall_mem_cons.2 ⟨hc, hw⟩)⟩
      | @run w d s ws hne hw hd h =>
        exact ⟨(c :: w) :: ws, .run (List.cons_ne_nil _ _) (List.forall_mem_cons.2 ⟨hc, hw⟩) hd h⟩

/-- The runs are the pieces between other characters that are not empty. -/
theorem HasRuns.eq (h : HasRuns p s ws) : (pieces (!p ·) s).filter (!·.isEmpty) = ws := by
  have hpieces {w : Text} (hw : ∀ c ∈ w, p c = true) : pieces (!p ·) w = [w] :=
    pieces_eq_singleton fun c hc => by rw [hw c hc]; rfl
  have hfilter {w : Text} (hne : w ≠ []) : [w].filter (!·.isEmpty) = [w] := by simp [hne]
  induction h with
  | nil => rfl
  | @skip c s ws hc _ ih =>
    have hsplit := pieces_append (p := (!p ·)) (c := c) (by rw [hc]; rfl) s []
    rw [List.nil_append] at hsplit
    rw [hsplit, List.filter_append, ih]
    rfl
  | last hne hw => rw [hpieces hw, hfilter hne]
  | @run w c s ws hne hw hc _ ih =>
    rw [pieces_append (by rw [hc]; rfl), hpieces hw, List.filter_append, hfilter hne, ih]
    rfl

theorem HasRuns.existsUnique (p : Char → Bool) (s : Text) : ∃! ws, HasRuns p s ws := by
  obtain ⟨ws, h⟩ := HasRuns.exists p s
  exact ⟨ws, h, fun ws' h' => h'.eq.symm.trans h.eq⟩

theorem HasRuns.of_mem (h : HasRuns p s ws) : ∀ w ∈ ws, w ≠ [] ∧ ∀ c ∈ w, p c = true := by
  induction h with
  | nil => exact List.forall_mem_nil _
  | skip _ _ ih => exact ih
  | last hne hw => exact List.forall_mem_singleton.2 ⟨hne, hw⟩
  | run hne hw _ _ ih => exact List.forall_mem_cons.2 ⟨⟨hne, hw⟩, ih⟩

theorem HasRuns.eq_nil_iff (h : HasRuns p s ws) : ws = [] ↔ ∀ c ∈ s, p c = false := by
  have hsome {w : Text} (hne : w ≠ []) (hw : ∀ c ∈ w, p c = true) : ∃ c ∈ w, p c ≠ false := by
    obtain ⟨c, w, rfl⟩ := List.exists_cons_of_ne_nil hne
    exact ⟨c, List.mem_cons_self, by rw [hw c List.mem_cons_self]; exact Bool.noConfusion⟩
  induction h with
  | nil => exact iff_of_true rfl (List.forall_mem_nil _)
  | @skip c s ws hc _ ih =>
    have hcons : (∀ d ∈ c :: s, p d = false) ↔ ∀ d ∈ s, p d = false := List.forall_mem_cons.trans (and_iff_right hc)
    exact ih.trans hcons.symm
  | last hne hw =>
    obtain ⟨c, hc, hpc⟩ := hsome hne hw
    exact iff_of_false (List.cons_ne_nil _ _) fun hall => hpc (hall c hc)
  | run hne hw _ _ _ =>
    obtain ⟨c, hc, hpc⟩ := hsome hne hw
    exact iff_of_false (List.cons_ne_nil _ _) fun hall => hpc (hall c (List.mem_append_left _ hc))

end Text

open Text

variable {s w slug : Text} {ws : List Text} {c : Char}

/-! ### Words of a slug -/

/-- A run of lower case letters and digits. -/
structure IsSlugWord (w : Text) : Prop where
  ne_nil : w ≠ []
  alphanum : ∀ c ∈ w, c.isAlphanum = true
  lower : lowerAscii w = w

theorem isAlphanum_toLower (hc : c.isAlphanum = true) : c.toLower.isAlphanum = true := by
  by_cases hupper : c.isUpper = true
  · rw [Char.isAlphanum, Char.isAlpha_toLower_eq_isAlpha, Char.isAlpha, hupper]
    rfl
  · rwa [Char.toLower_eq_of_not_isUpper hupper]

theorem Text.HasRuns.isSlugWord (h : HasRuns Char.isAlphanum s ws) : ∀ w ∈ ws.map lowerAscii, IsSlugWord w := by
  intro w hw
  obtain ⟨v, hv, rfl⟩ := List.mem_map.1 hw
  obtain ⟨hne, hall⟩ := h.of_mem v hv
  refine ⟨fun hnil => hne (List.map_eq_nil_iff.1 hnil), fun c hc => ?_, ?_⟩
  · obtain ⟨d, hd, rfl⟩ := List.mem_map.1 hc
    exact isAlphanum_toLower (hall d hd)
  · rw [lowerAscii, lowerAscii, List.map_map]
    exact List.map_congr_left fun c _ => Char.toLower_toLower_eq_toLower c

theorem IsSlugWord.not_mem (h : IsSlugWord w) : '-' ∉ w := fun hmem => absurd (h.alphanum _ hmem) (by decide)

theorem joinWith_cons_of_ne_nil (hws : ws ≠ []) (w : Text) :
    joinWith ['-'] (w :: ws) = w ++ '-' :: joinWith ['-'] ws := by
  obtain ⟨u, us, rfl⟩ := List.exists_cons_of_ne_nil hws
  rw [joinWith_cons, List.append_assoc, List.singleton_append]

/-- The runs of joined words are the words. -/
theorem runs_joinWith : ∀ {ws : List Text}, (∀ w ∈ ws, IsSlugWord w) → HasRuns Char.isAlphanum (joinWith ['-'] ws) ws
  | [], _ => .nil
  | w :: ws, h => by
    obtain ⟨hw, hws⟩ := List.forall_mem_cons.1 h
    by_cases hnil : ws = []
    · rw [hnil, joinWith_singleton]
      exact .last hw.ne_nil hw.alphanum
    · rw [joinWith_cons_of_ne_nil hnil]
      exact .run hw.ne_nil hw.alphanum (by decide) (runs_joinWith hws)

theorem joinWith_eq_nil_iff (h : ∀ w ∈ ws, IsSlugWord w) : joinWith ['-'] ws = [] ↔ ws = [] := by
  constructor
  · intro hnil
    have hruns := runs_joinWith h
    rw [hnil] at hruns
    exact hruns.eq_nil_iff.2 (List.forall_mem_nil _)
  · rintro rfl
    rfl

theorem head?_joinWith (h : ∀ w ∈ ws, IsSlugWord w) : (joinWith ['-'] ws).head? ≠ some '-' := by
  cases ws with
  | nil => exact nofun
  | cons w ws =>
    have hw := h w List.mem_cons_self
    have hhead : (joinWith ['-'] (w :: ws)).head? = w.head? := by
      by_cases hnil : ws = []
      · rw [hnil, joinWith_singleton]
      · rw [joinWith_cons_of_ne_nil hnil, List.head?_append_of_ne_nil _ hw.ne_nil]
    rw [hhead]
    exact fun he => hw.not_mem (List.mem_of_head? he)

theorem getLast?_joinWith : ∀ {ws : List Text}, (∀ w ∈ ws, IsSlugWord w) → (joinWith ['-'] ws).getLast? ≠ some '-'
  | [], _ => nofun
  | w :: ws, h => by
    obtain ⟨hw, hws⟩ := List.forall_mem_cons.1 h
    by_cases hnil : ws = []
    · rw [hnil, joinWith_singleton]
      exact fun he => hw.not_mem (List.mem_of_getLast? he)
    · have hne : joinWith ['-'] ws ≠ [] := fun he => hnil ((joinWith_eq_nil_iff hws).1 he)
      rw [joinWith_cons_of_ne_nil hnil, List.append_cons, List.getLast?_append_of_ne_nil _ hne]
      exact getLast?_joinWith hws

/-- Two hyphens in a row do not stand across a word. -/
theorem not_infix_word_append {t : Text} (hw : '-' ∉ w) (ht : t.head? ≠ some '-') (h : ¬['-', '-'] <:+: t) :
    ¬['-', '-'] <:+: w ++ '-' :: t := by
  induction w with
  | nil =>
    rw [List.nil_append, List.infix_cons_iff, not_or]
    refine ⟨fun hp => ht ?_, h⟩
    obtain ⟨more, rfl⟩ := (List.cons_prefix_cons.1 hp).2
    rfl
  | cons c w ih =>
    rw [List.cons_append, List.infix_cons_iff, not_or]
    refine ⟨fun hp => ?_, ih (List.not_mem_of_not_mem_cons hw)⟩
    exact List.ne_of_not_mem_cons hw (List.cons_prefix_cons.1 hp).1

theorem not_infix_joinWith : ∀ {ws : List Text}, (∀ w ∈ ws, IsSlugWord w) → ¬['-', '-'] <:+: joinWith ['-'] ws
  | [], _ => fun h => absurd (List.infix_nil.1 h) (List.cons_ne_nil _ _)
  | w :: ws, h => by
    obtain ⟨hw, hws⟩ := List.forall_mem_cons.1 h
    by_cases hnil : ws = []
    · rw [hnil, joinWith_singleton]
      exact fun hpair => hw.not_mem (hpair.subset List.mem_cons_self)
    · rw [joinWith_cons_of_ne_nil hnil]
      exact not_infix_word_append hw.not_mem (head?_joinWith hws) (not_infix_joinWith hws)

/-! ### A slug from character to character -/

/-- Puts a character to a slug. -/
def pushSlug (slug : Text) (c : Char) : Text :=
  if c.isAlphanum then slug ++ [c.toLower]
  else if slug ≠ [] ∧ slug.getLast? ≠ some '-' then slug ++ ['-']
  else slug

/-- The slug that is built from character to character. -/
def slugByChar (s : Text) : Text := ((s.foldl pushSlug []).reverse.dropWhile (· == '-')).reverse

/-- A run may start at the end of the slug. -/
def AtStart (slug : Text) : Prop := slug = [] ∨ slug.getLast? = some '-'

theorem pushSlug_atStart (h : AtStart slug) (hc : c.isAlphanum = false) : pushSlug slug c = slug := by
  rw [pushSlug, hc, if_neg Bool.false_ne_true]
  exact if_neg fun ⟨hne, hlast⟩ => h.elim hne hlast

theorem pushSlug_behind (hne : slug ≠ []) (hlast : slug.getLast? ≠ some '-') (hc : c.isAlphanum = false) :
    pushSlug slug c = slug ++ ['-'] := by
  rw [pushSlug, hc, if_neg Bool.false_ne_true, if_pos ⟨hne, hlast⟩]

theorem foldl_pushSlug_word : ∀ (slug : Text) {w : Text}, (∀ c ∈ w, c.isAlphanum = true) →
    w.foldl pushSlug slug = slug ++ lowerAscii w
  | slug, [], _ => (List.append_nil slug).symm
  | slug, c :: w, h => by
    obtain ⟨hc, hw⟩ := List.forall_mem_cons.1 h
    have hpush : pushSlug slug c = slug ++ [c.toLower] := if_pos hc
    rw [List.foldl_cons, hpush, foldl_pushSlug_word _ hw, List.append_assoc]
    rfl

/-- The runs of a text are put to a slug with hyphens between them, and perhaps with more at the end. -/
theorem foldl_pushSlug (h : HasRuns Char.isAlphanum s ws) : ∀ slug : Text, AtStart slug →
    ∃ n, s.foldl pushSlug slug = slug ++ joinWith ['-'] (ws.map lowerAscii) ++ List.replicate n '-' := by
  induction h with
  | nil => exact fun slug _ => ⟨0, by simp [joinWith]⟩
  | skip hc _ ih =>
    intro slug hslug
    rw [List.foldl_cons, pushSlug_atStart hslug hc]
    exact ih slug hslug
  | last _ hw =>
    intro slug _
    refine ⟨0, ?_⟩
    rw [foldl_pushSlug_word slug hw, List.map_singleton, joinWith_singleton, List.replicate_zero, List.append_nil]
  | @run w c s ws hne hw hc h ih =>
    intro slug _
    have hword : IsSlugWord (lowerAscii w) := (HasRuns.last hne hw).isSlugWord _ (List.mem_singleton_self _)
    have hlast : (slug ++ lowerAscii w).getLast? ≠ some '-' := by
      rw [List.getLast?_append_of_ne_nil _ hword.ne_nil]
      exact fun he => hword.not_mem (List.mem_of_getLast? he)
    have hpush : pushSlug (slug ++ lowerAscii w) c = slug ++ lowerAscii w ++ ['-'] :=
      pushSlug_behind (List.append_ne_nil_of_right_ne_nil _ hword.ne_nil) hlast hc
    obtain ⟨n, hn⟩ := ih (slug ++ lowerAscii w ++ ['-']) (.inr List.getLast?_concat)
    rw [List.foldl_append, foldl_pushSlug_word slug hw, List.foldl_cons, hpush, hn, List.map_cons]
    by_cases hnil : ws = []
    · -- no run follows, and the hyphen is one at the end
      refine ⟨n + 1, ?_⟩
      rw [hnil, List.map_nil, joinWith_singleton, List.replicate_succ]
      simp [joinWith]
    · refine ⟨n, ?_⟩
      rw [joinWith_cons_of_ne_nil (fun he => hnil (List.map_eq_nil_iff.1 he))]
      simp only [List.append_assoc, List.cons_append, List.nil_append]

theorem dropWhile_hyphens {t : Text} (ht : t.getLast? ≠ some '-') (n : Nat) :
    ((t ++ List.replicate n '-').reverse.dropWhile (· == '-')).reverse = t := by
  have hhyphens : ∀ c ∈ List.replicate n '-', (c == '-') = true := fun c hc =>
    beq_iff_eq.2 (List.eq_of_mem_replicate hc)
  have hhead : ∀ c ∈ t.reverse.head?, (c == '-') = false := fun c hc => by
    rw [List.head?_reverse] at hc
    exact beq_false_of_ne fun he => ht (he ▸ hc)
  rw [List.reverse_append, List.reverse_replicate, List.dropWhile_append_of_pos hhyphens, dropWhile_of_head hhead,
    List.reverse_reverse]

/-! ### Slugs -/

theorem slugify_of_runs (h : HasRuns Char.isAlphanum s ws) : slugify s = joinWith ['-'] (ws.map lowerAscii) := by
  rw [slugify, h.eq]

theorem slugByChar_eq (s : Text) : slugByChar s = slugify s := by
  obtain ⟨ws, h⟩ := HasRuns.exists Char.isAlphanum s
  obtain ⟨n, hn⟩ := foldl_pushSlug h [] (.inl rfl)
  rw [List.nil_append] at hn
  calc slugByChar s
    _ = ((joinWith ['-'] (ws.map lowerAscii) ++ List.replicate n '-').reverse.dropWhile (· == '-')).reverse := by
        rw [slugByChar, hn]
    _ = joinWith ['-'] (ws.map lowerAscii) := dropWhile_hyphens (getLast?_joinWith h.isSlugWord) n
    _ = slugify s := (slugify_of_runs h).symm

example : slugByChar " Die Größe -- x2! ".toList = "die-gr-e-x2".toList := by decide

theorem slugify_joinWith (h : ∀ w ∈ ws, IsSlugWord w) : slugify (joinWith ['-'] ws) = joinWith ['-'] ws := by
  rw [slugify_of_runs (runs_joinWith h), List.map_congr_left fun w hw => (h w hw).lower, List.map_id']

/-- A slug is the longest runs of ASCII letters and digits in lower case with single hyphens between
them, however it is built; so hyphens stand only between letters and digits, a slug is its own slug,
and it is empty for a text with no such run only. -/
theorem slugify_canonical (s : Text) :
    (∃! ws, HasRuns Char.isAlphanum s ws) ∧
    (∀ ws, HasRuns Char.isAlphanum s ws → slugify s = joinWith ['-'] (ws.map lowerAscii)) ∧
    slugByChar s = slugify s ∧
    (slugify s).head? ≠ some '-' ∧ (slugify s).getLast? ≠ some '-' ∧ ¬['-', '-'] <:+: slugify s ∧
    slugify (slugify s) = slugify s ∧
    (slugify s = [] ↔ ∀ c ∈ s, c.isAlphanum = false) := by
  obtain ⟨ws, h⟩ := HasRuns.exists Char.isAlphanum s
  have hslug := slugify_of_runs h
  have hwords := h.isSlugWord
  refine ⟨HasRuns.existsUnique _ s, fun ws h => slugify_of_runs h, slugByChar_eq s, ?_, ?_, ?_, ?_, ?_⟩
  · rw [hslug]
    exact head?_joinWith hwords
  · rw [hslug]
    exact getLast?_joinWith hwords
  · rw [hslug]
    exact not_infix_joinWith hwords
  · rw [hslug]
    exact slugify_joinWith hwords
  · rw [hslug, joinWith_eq_nil_iff hwords, List.map_eq_nil_iff, h.eq_nil_iff]

end QuartoPretext
