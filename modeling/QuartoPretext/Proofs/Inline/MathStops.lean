/-
# Where math ends, by bytes

The sign that ends math may be looked for byte by byte. After a backslash the scan goes
on two bytes later, which may be within a character; no byte of such a character is a
backslash or a dollar sign, so it passes over the rest of it. Every place that it stops
at is thus a place of the reader of characters, and both find the same end.

Key definitions: `Math.displayStop?`, `Math.inlineStop`, `Math.stopOf`.
Key theorems: `Math.displayStop?_utf8`, `Math.inlineStopFrom_utf8`.
-/
import QuartoPretext.Proofs.Inline.ByteScan
import QuartoPretext.Proofs.Inline.MathDelimiters

namespace QuartoPretext

open Text

namespace Math

open ByteScan

variable {α : Type} {f : Nat → α} {before rest : Text} {c : Char}

/-! ### Classes of bytes -/

/-- The characters that a scan for math stops at. -/
def isSign (c : Char) : Bool := c == '\\' || c == '$'

theorem isAscii_isSign : IsAscii isSign := fun c hc => by
  rcases Bool.or_eq_true_iff.1 hc with hc | hc
  · exact isAscii_eq (by decide) c hc
  · exact isAscii_eq (by decide) c hc

theorem isAscii_isAsciiSpace : IsAscii isAsciiSpace := fun c hc => by
  simp only [isAsciiSpace, Bool.or_eq_true, beq_iff_eq] at hc
  rcases hc with (((rfl | rfl) | rfl) | rfl) | rfl <;> decide

theorem isAscii_isDigit : IsAscii Char.isDigit := fun c hc => by
  have hle : c.toNat ≤ '9'.toNat := by
    simp only [Char.isDigit, Bool.and_eq_true, decide_eq_true_eq] at hc
    exact hc.2
  exact Nat.lt_of_le_of_lt hle (by decide)

/-- A byte that a scan for math does not stop at. -/
theorem not_stands_of_isSign {bytes : List UInt8} {i : Nat} (h : stands isSign bytes i = false) :
    stands (· == '\\') bytes i = false ∧ stands (· == '$') bytes i = false := by
  have hor : stands isSign bytes i = (stands (· == '\\') bytes i || stands (· == '$') bytes i) := stands_or _ _ _ _
  rwa [hor, Bool.or_eq_false_iff] at h

/-! ### The scans -/

/-- The place of the first pair of dollar signs. -/
def displayStop? (bytes : List UInt8) (j : Nat) : Option Nat :=
  if j + 1 < bytes.length then
    if stands (· == '\\') bytes j then displayStop? bytes (j + 2)
    else if stands (· == '$') bytes j && stands (· == '$') bytes (j + 1) then some j
    else displayStop? bytes (j + 1)
  else none
termination_by bytes.length - j

/-- The place of the dollar sign that ends inline math which starts at `start`, or the first one
that is refused only for the digit after it. -/
def inlineStopFrom (bytes : List UInt8) (start : Nat) (refused : Option Nat) (j : Nat) : Except (Option Nat) Nat :=
  if j < bytes.length then
    if stands (· == '\\') bytes j then inlineStopFrom bytes start refused (j + 2)
    else if stands (· == '$') bytes j then
      if start < j && !stands isAsciiSpace bytes (j - 1) then
        if stands Char.isDigit bytes (j + 1) then inlineStopFrom bytes start (refused.or (some j)) (j + 1)
        else .ok j
      else inlineStopFrom bytes start refused (j + 1)
    else inlineStopFrom bytes start refused (j + 1)
  else .error refused
termination_by bytes.length - j

def inlineStop (bytes : List UInt8) (start : Nat) : Except (Option Nat) Nat :=
  if !stands (· == '$') bytes start && (start < bytes.length && !stands isAsciiSpace bytes start) then
    inlineStopFrom bytes start none start
  else .error none

theorem le_of_displayStop? {bytes : List UInt8} {j stop : Nat} (h : displayStop? bytes j = some stop) : j ≤ stop := by
  fun_induction displayStop? bytes j with
  | case1 j _ _ ih => exact Nat.le_of_add_right_le (ih h)
  | case2 j =>
    cases h
    exact Nat.le_refl _
  | case3 j _ _ _ ih => exact Nat.le_of_succ_le (ih h)
  | case4 => cases h

theorem le_of_inlineStopFrom {bytes : List UInt8} {start j : Nat} {refused : Option Nat} (hstart : start ≤ j)
    (hrefused : ∀ k ∈ refused, start ≤ k) : (∀ stop, inlineStopFrom bytes start refused j = .ok stop → start ≤ stop) ∧
      ∀ first, inlineStopFrom bytes start refused j = .error first → ∀ k ∈ first, start ≤ k := by
  fun_induction inlineStopFrom bytes start refused j with
  | case1 refused j _ _ ih => exact ih (by omega) hrefused
  | case2 refused j _ _ _ _ _ ih =>
    refine ih (by omega) fun k hk => ?_
    cases refused with
    | none =>
      cases hk
      exact hstart
    | some k' => exact hrefused k hk
  | case3 refused j =>
    refine ⟨fun stop h => ?_, fun first h => ?_⟩
    · cases h
      exact hstart
    · cases h
  | case4 refused j _ _ _ _ ih => exact ih (by omega) hrefused
  | case5 refused j _ _ _ ih => exact ih (by omega) hrefused
  | case6 refused j =>
    refine ⟨fun stop h => ?_, fun first h => ?_⟩
    · cases h
    · cases h
      exact hrefused

theorem le_of_inlineStop {bytes : List UInt8} {start : Nat} :
    (∀ stop, inlineStop bytes start = .ok stop → start ≤ stop) ∧
      ∀ refused, inlineStop bytes start = .error refused → ∀ k ∈ refused, start ≤ k := by
  unfold inlineStop
  split
  · exact le_of_inlineStopFrom (Nat.le_refl start) nofun
  · refine ⟨nofun, fun refused h => ?_⟩
    cases h
    exact nofun

/-! ### Steps of the scans -/

section Steps

variable {bytes : List UInt8} {start j : Nat} {refused : Option Nat}

theorem displayStop?_of_le (h : bytes.length ≤ j + 1) : displayStop? bytes j = none := by
  rw [displayStop?, if_neg (Nat.not_lt.2 h)]

theorem displayStop?_backslash (h : stands (· == '\\') bytes j = true) :
    displayStop? bytes j = displayStop? bytes (j + 2) := by
  by_cases hj : j + 1 < bytes.length
  · rw [displayStop?, if_pos hj, if_pos h]
  · rw [displayStop?_of_le (by omega), displayStop?_of_le (by omega)]

theorem displayStop?_pair (h : stands (· == '\\') bytes j = false) (hj : stands (· == '$') bytes j = true)
    (hnext : stands (· == '$') bytes (j + 1) = true) : displayStop? bytes j = some j := by
  rw [displayStop?, if_pos (lt_of_stands hnext), h, hj, hnext]
  rfl

/-- A byte that starts no pair is passed. -/
theorem displayStop?_next (h : stands (· == '\\') bytes j = false)
    (hpair : (stands (· == '$') bytes j && stands (· == '$') bytes (j + 1)) = false) :
    displayStop? bytes j = displayStop? bytes (j + 1) := by
  by_cases hj : j + 1 < bytes.length
  · rw [displayStop?, if_pos hj, h, hpair]
    rfl
  · rw [displayStop?_of_le (by omega), displayStop?_of_le (by omega)]

theorem displayStop?_passesOver (bytes : List UInt8) : PassesOver isSign bytes (displayStop? bytes) := by
  intro j h
  obtain ⟨hslash, hsign⟩ := not_stands_of_isSign h
  exact displayStop?_next hslash (by rw [hsign, Bool.false_and])

theorem inlineStopFrom_of_le (h : bytes.length ≤ j) : inlineStopFrom bytes start refused j = .error refused := by
  rw [inlineStopFrom, if_neg (Nat.not_lt.2 h)]

theorem inlineStopFrom_backslash (h : stands (· == '\\') bytes j = true) :
    inlineStopFrom bytes start refused j = inlineStopFrom bytes start refused (j + 2) := by
  rw [inlineStopFrom, if_pos (lt_of_stands h), if_pos h]

theorem inlineStopFrom_sign (h : stands (· == '\\') bytes j = false) (hj : stands (· == '$') bytes j = true)
    (hstart : start < j) : inlineStopFrom bytes start refused j =
      if stands isAsciiSpace bytes (j - 1) then inlineStopFrom bytes start refused (j + 1)
      else if stands Char.isDigit bytes (j + 1) then inlineStopFrom bytes start (refused.or (some j)) (j + 1)
      else .ok j := by
  rw [inlineStopFrom, if_pos (lt_of_stands hj), h, if_neg Bool.false_ne_true, if_pos hj, decide_eq_true hstart,
    Bool.true_and]
  cases stands isAsciiSpace bytes (j - 1) <;> rfl

theorem inlineStopFrom_passesOver (bytes : List UInt8) (start : Nat) (refused : Option Nat) :
    PassesOver isSign bytes (inlineStopFrom bytes start refused) := by
  intro j h
  obtain ⟨hslash, hsign⟩ := not_stands_of_isSign h
  by_cases hj : j < bytes.length
  · rw [inlineStopFrom, if_pos hj, hslash, hsign]
    rfl
  · rw [inlineStopFrom_of_le (by omega), inlineStopFrom_of_le (by omega)]

end Steps

/-! ### Scans of a text -/

/-- What a scan gives behind a backslash and one more byte is what it gives behind the character. -/
theorem passes_escaped (h : PassesOver isSign (utf8 (before ++ '\\' :: c :: rest)) f) :
    f (utf8Length before + 2) = f (utf8Length (before ++ ['\\', c])) := by
  rw [List.append_cons] at h ⊢
  rw [← h.behind isAscii_isSign c.utf8Size_pos fun _ => rfl, utf8Length_concat]
  rfl

theorem passes_char (h : PassesOver isSign (utf8 (before ++ c :: rest)) f) (hc : isSign c = false) :
    f (utf8Length before) = f (utf8Length (before ++ [c])) :=
  h.behind isAscii_isSign (Nat.zero_le _) fun h => absurd h (Bool.eq_false_iff.1 hc)

theorem stands_sign (before rest : Text) (c : Char) :
    stands (· == '\\') (utf8 (before ++ c :: rest)) (utf8Length before) = (c == '\\') ∧
      stands (· == '$') (utf8 (before ++ c :: rest)) (utf8Length before) = (c == '$') :=
  ⟨stands_head (isAscii_eq (by decide)) before (c :: rest), stands_head (isAscii_eq (by decide)) before (c :: rest)⟩

theorem utf8Length_sign (before : Text) : utf8Length (before ++ ['$']) = utf8Length before + 1 :=
  utf8Length_concat before '$'

/-- A class of ASCII characters as the byte behind a dollar sign shows it. -/
theorem stands_behind_sign {p : Char → Bool} (hp : IsAscii p) (before rest : Text) :
    stands p (utf8 (before ++ '$' :: rest)) (utf8Length before + 1) = rest.head?.any p := by
  rw [List.append_cons, ← utf8Length_sign]
  exact stands_head hp _ rest

/-- Display math ends at the same place for bytes and for characters. -/
theorem displayStop?_utf8 (before rest : Text) :
    displayStop? (utf8 (before ++ rest)) (utf8Length before) = endOf before (displayClosing? rest) := by
  fun_induction displayClosing? rest generalizing before with
  | case1 =>
    refine displayStop?_of_le ?_
    rw [List.append_nil, length_utf8]
    exact Nat.le_succ _
  | case2 c rest ih =>
    have hpass := passes_escaped (displayStop?_passesOver (utf8 (before ++ '\\' :: c :: rest)))
    rw [displayStop?_backslash (stands_sign before (c :: rest) '\\').1, hpass, endOf_prepend, ← ih, List.append_assoc]
    rfl
  | case3 rest =>
    obtain ⟨hslash, hsign⟩ := stands_sign before ('$' :: rest) '$'
    have hnext := stands_behind_sign (isAscii_eq (d := '$') (by decide)) before ('$' :: rest)
    rw [displayStop?_pair hslash hsign hnext, endOf_nil]
  | case4 c rest hpair hsigns ih =>
    rw [endOf_prepend, ← ih, List.append_assoc, List.singleton_append]
    obtain ⟨hslash, hsign⟩ := stands_sign before rest c
    by_cases hc : isSign c = false
    · exact passes_char (displayStop?_passesOver _) hc
    · have hc : c = '\\' ∨ c = '$' := by simpa [isSign, Decidable.or_iff_not_imp_left] using hc
      rcases hc with rfl | rfl
      · -- nothing follows the backslash
        cases rest with
        | nil =>
          rw [displayStop?_of_le, displayStop?_of_le]
          · rw [length_utf8]
            omega
          · rw [length_utf8, utf8Length_concat]
            exact Nat.le_refl _
        | cons d rest => exact absurd rfl (hpair d rest rfl)
      · have hnext := stands_behind_sign (isAscii_eq (d := '$') (by decide)) before rest
        rw [utf8Length_sign]
        refine displayStop?_next hslash ?_
        rw [hnext]
        cases rest with
        | nil => exact Bool.and_false _
        | cons d rest =>
          have hd : d ≠ '$' := fun hd => hsigns rest rfl (hd ▸ rfl)
          exact Bool.and_eq_false_imp.2 fun _ => beq_false_of_ne hd

/-- The place that a scan for the end of inline math comes to, from the ends that the reader finds
where no digit may follow, and where one may. -/
def stopOf (refused : Option Nat) : Option Nat → Option Nat → Except (Option Nat) Nat
  | some stop, _ => .ok stop
  | none, withDigit => .error (refused.or withDigit)

/-- A place that is refused stands for all that are refused later. -/
theorem stopOf_refused (refused : Option Nat) (place : Nat) (strict any : Option Nat) :
    stopOf (refused.or (some place)) strict any = stopOf refused strict (some place) := by
  cases strict with
  | none => cases refused <;> rfl
  | some stop => rfl

theorem stands_before {p : Char → Bool} {b : Char} (hp : IsAscii p) (hb : before.getLast? = some b) (rest : Text) :
    stands p (utf8 (before ++ rest)) (utf8Length before - 1) = p b := by
  obtain ⟨front, rfl⟩ := List.getLast?_eq_some_iff.1 hb
  exact stands_last hp front rest b

/-- Inline math ends at the same place for bytes and for characters. -/
theorem inlineStopFrom_utf8 {b : Char} (start : Nat) (refused : Option Nat) (before rest : Text)
    (hb : before.getLast? = some b) (hstart : start ≤ utf8Length before)
    (hfirst : rest.head? = some '$' → start < utf8Length before) :
    inlineStopFrom (utf8 (before ++ rest)) start refused (utf8Length before) =
      stopOf refused (endOf before (closing? false b rest)) (endOf before (closing? true b rest)) := by
  fun_induction closing? false b rest generalizing before refused with
  | case1 b =>
    rw [List.append_nil, inlineStopFrom_of_le (Nat.le_of_eq (length_utf8 before))]
    exact congrArg Except.error (Option.or_none).symm
  | case2 b c rest ih =>
    have hpass := passes_escaped (inlineStopFrom_passesOver (utf8 (before ++ '\\' :: c :: rest)) start refused)
    have hlater : start < utf8Length (before ++ ['\\', c]) := by
      have hpos : 0 < utf8Length ['\\', c] := utf8Length_pos (List.cons_ne_nil _ _)
      rw [utf8Length_append]
      omega
    have ih := ih refused (before ++ ['\\', c]) (by simp) (Nat.le_of_lt hlater) fun _ => hlater
    rw [inlineStopFrom_backslash (stands_sign before (c :: rest) '\\').1, hpass, closing?, endOf_prepend,
      endOf_prepend, ← ih, List.append_assoc]
    rfl
  | case3 b rest hends =>
    obtain ⟨hslash, hsign⟩ := stands_sign before rest '$'
    have hspace := stands_before isAscii_isAsciiSpace hb ('$' :: rest)
    have hdigit := stands_behind_sign isAscii_isDigit before rest
    simp only [Bool.false_or, Bool.and_eq_true, Bool.not_eq_true'] at hends
    rw [inlineStopFrom_sign hslash hsign (hfirst rfl), hspace, hends.1, hdigit, hends.2, endOf_nil]
    rfl
  | case4 b rest hends ih =>
    obtain ⟨hslash, hsign⟩ := stands_sign before rest '$'
    have hspace := stands_before isAscii_isAsciiSpace hb ('$' :: rest)
    have hdigit := stands_behind_sign isAscii_isDigit before rest
    have hlater : start < utf8Length (before ++ ['$']) := by
      rw [utf8Length_sign]
      omega
    have ih (refused : Option Nat) := ih refused (before ++ ['$']) List.getLast?_concat (Nat.le_of_lt hlater) fun _ => hlater
    simp only [List.append_assoc, List.singleton_append, utf8Length_sign] at ih
    rw [inlineStopFrom_sign hslash hsign (hfirst rfl), hspace, hdigit, endOf_prepend, ih, ih]
    by_cases hb : isAsciiSpace b = true
    · have hopen : closing? true b ('$' :: rest) = prepend ['$'] (closing? true '$' rest) := by
        rw [closing?, hb]
        rfl
      rw [if_pos hb, hopen, endOf_prepend]
    · have hd : rest.head?.any Char.isDigit = true := by simpa [hb] using hends
      have hopen : closing? true b ('$' :: rest) = some ([], rest) := by
        rw [closing?, Bool.eq_false_iff.2 hb]
        rfl
      rw [if_neg hb, if_pos hd, hopen, endOf_nil, stopOf_refused]
  | case5 b c rest hpair hsign ih =>
    have hlater : start < utf8Length (before ++ [c]) := by
      have hpos := c.utf8Size_pos
      rw [utf8Length_concat]
      omega
    have hopen : closing? true b (c :: rest) = prepend [c] (closing? true c rest) := by
      rw [closing?]
      · exact hpair
      · exact hsign
    have ih := ih refused (before ++ [c]) List.getLast?_concat (Nat.le_of_lt hlater) fun _ => hlater
    rw [hopen, endOf_prepend, endOf_prepend, ← ih, List.append_assoc, List.singleton_append]
    by_cases hc : c = '\\'
    · -- nothing follows the backslash
      subst hc
      cases rest with
      | nil =>
        rw [inlineStopFrom_backslash (stands_sign before [] '\\').1, inlineStopFrom_of_le, inlineStopFrom_of_le]
        · exact Nat.le_of_eq (length_utf8 _)
        · rw [length_utf8, utf8Length_concat]
          exact Nat.le_succ _
      | cons d rest => exact absurd rfl (hpair d rest rfl)
    · exact passes_char (inlineStopFrom_passesOver _ _ _) (by simpa [isSign, hc] using hsign)

/-- Whether more than white space follows a dollar sign, as the bytes show it. -/
theorem opens_behind_sign (before rest : Text) :
    (decide (utf8Length before + 1 < (utf8 (before ++ '$' :: rest)).length) &&
      !stands isAsciiSpace (utf8 (before ++ '$' :: rest)) (utf8Length before + 1)) =
        rest.head?.any (!isAsciiSpace ·) := by
  rw [stands_behind_sign isAscii_isAsciiSpace]
  cases rest with
  | nil =>
    have hlength : (utf8 (before ++ ['$'])).length = utf8Length before + 1 := by rw [length_utf8, utf8Length_sign]
    simp [hlength]
  | cons c rest =>
    have hlt : utf8Length before + 1 < (utf8 (before ++ '$' :: c :: rest)).length := by
      have hpos := c.utf8Size_pos
      rw [length_utf8, utf8Length_append]
      show _ < _ + (1 + (c.utf8Size + utf8Length rest))
      omega
    rw [decide_eq_true hlt]
    rfl

/-- Inline math that starts with neither a dollar sign nor white space ends as the reader finds it. -/
theorem inlineStop_utf8 (before rest : Text) (hc : c ≠ '$') (hspace : isAsciiSpace c = false) :
    inlineStop (utf8 (before ++ '$' :: c :: rest)) (utf8Length before + 1) =
      stopOf none (endOf (before ++ ['$']) (closing? false '$' (c :: rest)))
        (endOf (before ++ ['$']) (closing? true '$' (c :: rest))) := by
  have hopens := opens_behind_sign before (c :: rest)
  have hsign := stands_behind_sign (isAscii_eq (d := '$') (by decide)) before (c :: rest)
  have hfrom := inlineStopFrom_utf8 (utf8Length before + 1) none (before ++ ['$']) (c :: rest)
    List.getLast?_concat (Nat.le_of_eq (utf8Length_sign before).symm) fun h => absurd (Option.some.inj h) hc
  rw [List.append_assoc, utf8Length_sign] at hfrom
  rw [inlineStop, if_pos, ← hfrom]
  · rfl
  · rw [hsign, hopens]
    simp [hc, hspace]

/-- Inline math does not start at the end of a text or with white space. -/
theorem inlineStop_eq_error (before rest : Text) (h : rest.head?.any (!isAsciiSpace ·) = false) :
    inlineStop (utf8 (before ++ '$' :: rest)) (utf8Length before + 1) = .error none := by
  refine if_neg ?_
  rw [opens_behind_sign, h, Bool.and_false]
  exact Bool.false_ne_true

end Math
end QuartoPretext
