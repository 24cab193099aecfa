/-
# Character classes that exclude one another

A class of ASCII characters is part of its Unicode class, and no letter or number of
any kind is white space. Beyond ASCII that is read off the range tables, at the few
places where white space is.

Key theorems: `Text.toNat_lt_of_isAlphanum`, `Text.isAlphanumeric_of_isSpace`,
`Text.isSpace_of_isDigit`, `Text.isSpace_of_letter`.
-/
import QuartoPretext.Text.Basic
import Mathlib.Tactic.IntervalCases

namespace QuartoPretext.Text

/-- What holds for each character of a text is decided along the text. -/
instance (priority := high) decidableForallMem (p : Char → Prop) [DecidablePred p] (s : Text) :
    Decidable (∀ c ∈ s, p c) := List.decidableBAll p s

/-- What holds for the first or the last character of a text is decided there. -/
instance (priority := high) decidableForallMemOption (p : Char → Prop) [DecidablePred p] (o : Option Char) :
    Decidable (∀ c ∈ o, p c) := Option.decidableForallMem o

variable {c : Char}

/-! ### ASCII -/

/-- Letters and digits in ASCII. -/
theorem toNat_lt_of_isAlphanum (h : c.isAlphanum = true) : c.toNat < 128 := by
  unfold Char.isAlphanum Char.isAlpha Char.isUpper Char.isLower Char.isDigit at h
  simp only [Bool.or_eq_true, Bool.and_eq_true, decide_eq_true_eq] at h
  have hle : c.toNat ≤ 'z'.toNat := by
    rcases h with (⟨_, h⟩ | ⟨_, h⟩) | ⟨_, h⟩
    · exact Nat.le_trans h (by decide)
    · exact h
    · exact Nat.le_trans h (by decide)
  exact Nat.lt_of_le_of_lt hle (by decide)

theorem isAlphanumeric_of_isAlphanum (h : c.isAlphanum = true) : isAlphanumeric c = true := by
  rw [isAlphanumeric, if_pos (toNat_lt_of_isAlphanum h), h]

theorem isWord_of_isAlphanum (h : c.isAlphanum = true) : isWord c = true := by
  rw [isWord, if_pos (toNat_lt_of_isAlphanum h), h, Bool.true_or]

theorem isDigit_of_char (h : c.isDigit = true) : isDigit c = true := by
  have hascii : c.toNat < 128 := toNat_lt_of_isAlphanum (by rw [Char.isAlphanum, h, Bool.or_true])
  rw [isDigit, if_pos hascii, h]

/-! ### Letters and numbers -/

theorem isAlphanumeric_of_isDigit (h : isDigit c = true) : isAlphanumeric c = true := by
  unfold isDigit at h
  unfold isAlphanumeric
  split
  · next hascii =>
    rw [if_pos hascii] at h
    rw [Char.isAlphanum, h, Bool.or_true]
  · next hwide =>
    rw [if_neg hwide] at h
    rw [h, Bool.or_true, Bool.true_or]

/-- The white space beyond ASCII. -/
def wideSpaces : List Nat :=
  [0x85, 0xa0, 0x1680, 0x2000, 0x2001, 0x2002, 0x2003, 0x2004, 0x2005, 0x2006, 0x2007, 0x2008, 0x2009, 0x200a,
    0x2028, 0x2029, 0x202f, 0x205f, 0x3000]

theorem not_inRanges_wideSpaces : ∀ n ∈ wideSpaces, inRanges alphabeticRanges n = false ∧
    inRanges decimalDigitRanges n = false ∧ inRanges otherNumberRanges n = false := by decide +kernel

theorem mem_wideSpaces (h : isSpace c = true) (hc : ¬c.toNat < 128) : c.toNat ∈ wideSpaces := by
  have hne : c ≠ ' ' := by
    rintro rfl
    exact hc (by decide)
  simp only [isSpace, Bool.or_eq_true, Bool.and_eq_true, decide_eq_true_eq, beq_iff_eq, hne, false_or] at h
  simp only [wideSpaces, List.mem_cons, List.not_mem_nil, or_false]
  omega

/-- White space is neither letter nor number. -/
theorem isAlphanumeric_of_isSpace (h : isSpace c = true) : isAlphanumeric c = false := by
  unfold isAlphanumeric
  split
  · next hascii =>
    simp only [isSpace, Bool.or_eq_true, Bool.and_eq_true, decide_eq_true_eq, beq_iff_eq] at h
    rcases h with (rfl | ⟨hlo, hhi⟩) | ⟨hwide, -⟩
    · decide
    · rw [← Char.ofNat_toNat c]
      generalize c.toNat = n at hlo hhi ⊢
      interval_cases n <;> decide
    · omega
  · next hwide =>
    obtain ⟨halpha, hdigit, hother⟩ := not_inRanges_wideSpaces _ (mem_wideSpaces h hwide)
    rw [halpha, hdigit, hother]
    rfl

theorem isSpace_of_isAlphanumeric (h : isAlphanumeric c = true) : isSpace c = false := by
  by_contra hspace
  rw [isAlphanumeric_of_isSpace (Bool.not_eq_false _ ▸ hspace)] at h
  cases h

/-- A digit is no white space. -/
theorem isSpace_of_isDigit (h : isDigit c = true) : isSpace c = false :=
  isSpace_of_isAlphanumeric (isAlphanumeric_of_isDigit h)

theorem isSpace_of_letter (ha : 'a' ≤ c) (hz : c ≤ 'z') : isSpace c = false := by
  have hlower : c.isLower = true := Bool.and_eq_true_iff.2 ⟨decide_eq_true ha, decide_eq_true hz⟩
  have halnum : c.isAlphanum = ((c.isUpper || c.isLower) || c.isDigit) := rfl
  rw [hlower, Bool.or_true, Bool.true_or] at halnum
  exact isSpace_of_isAlphanumeric (isAlphanumeric_of_isAlphanum halnum)

theorem not_alpha_of_isSpace (h : isSpace c) : c.isAlpha = false := by
  refine Bool.eq_false_iff.2 fun halpha => ?_
  have hnot := isAlphanumeric_of_isSpace h
  rw [isAlphanumeric_of_isAlphanum (by rw [Char.isAlphanum, halpha, Bool.true_or])] at hnot
  cases hnot

end QuartoPretext.Text
