/-
# Math by bytes

The scan for math goes from byte to byte, and cuts the text at the dollar signs that it
finds. From every place of a text that a reader of characters comes to, it finds the
same math and the same unmatched signs as the reader.

Key definitions: `Math.foundFrom`, `Math.Agrees`.
Key theorems: `Math.foundFrom_alone`, `Math.agrees_signs`, `Math.agrees_sign`, `Math.agrees`.
-/
import QuartoPretext.Proofs.Inline.MathStops

namespace QuartoPretext

open Text

namespace Math

open ByteScan

variable {s tex rest before pending : Text} {c : Char}

/-! ### Pieces of math, one by one -/

/-- Something of a text is read. -/
theorem length_lt_of_piece? {ps : List Piece} (h : piece? s = some (ps, rest)) : rest.length < s.length := by
  obtain ⟨used, hs, hne⟩ : ∃ used, s = used ++ rest ∧ used ≠ [] := by
    rcases piece?_cases h with ⟨used, hne, hs, -⟩ | ⟨tex, -, hs, -⟩ | ⟨tex, hs, -⟩
    · exact ⟨used, hs, hne⟩
    · exact ⟨'$' :: tex ++ ['$'], by rw [hs]; simp, by simp⟩
    · exact ⟨'$' :: '$' :: tex ++ ['$', '$'], by rw [hs]; simp, by simp⟩
  rw [hs, List.length_append]
  exact Nat.lt_add_of_pos_left (List.length_pos_iff.2 hne)

theorem pieces_of_piece? {ps : List Piece} (h : piece? s = some (ps, rest)) : pieces s = ps ++ pieces rest :=
  scan_found h (length_lt_of_piece? h)

theorem pieces_literal (h : piece? (c :: s) = none) : pieces (c :: s) = chars [c] ++ pieces s := scan_none h

theorem pieces_escaped (c : Char) (s : Text) : pieces ('\\' :: c :: s) = chars ['\\', c] ++ pieces s :=
  pieces_of_piece? rfl

theorem pieces_display (h : displayClosing? s = some (tex, rest)) :
    pieces ('$' :: '$' :: s) = .display (trim tex) :: pieces rest := by
  have hpiece : piece? ('$' :: '$' :: s) = some ([.display (trim tex)], rest) := by rw [piece?, h]
  exact pieces_of_piece? hpiece

theorem pieces_display_open (h : displayClosing? s = none) :
    pieces ('$' :: '$' :: s) = .unmatched ['$', '$'] :: (chars ['$', '$'] ++ pieces s) := by
  have hpiece : piece? ('$' :: '$' :: s) = some (.unmatched ['$', '$'] :: chars ['$', '$'], s) := by rw [piece?, h]
  exact pieces_of_piece? hpiece

theorem pieces_sign (h : s.head? ≠ some '$') : pieces ('$' :: s) = (inline s).1 ++ pieces (inline s).2 := by
  refine pieces_of_piece? ?_
  unfold piece?
  split
  · next he => cases he
  · next he =>
    obtain rfl := (List.cons.inj he).2
    exact absurd rfl h
  · next he =>
    obtain rfl := (List.cons.inj he).2
    rfl
  · next hnone => exact absurd rfl (hnone s)

/-- Inline math does not start at the end of a text or before white space. -/
theorem inline_blank (h : s.head?.any (!isAsciiSpace ·) = false) : inline s = (chars ['$'], s) := by
  cases s with
  | nil => rfl
  | cons c s => exact if_pos (by simpa using h)

theorem inline_closed (hc : isAsciiSpace c = false) (h : closing? false '$' (c :: s) = some (tex, rest)) :
    inline (c :: s) = ([.inline tex], rest) := by
  rw [inline, if_neg (Bool.eq_false_iff.1 hc), h]

theorem inline_refused {skipped : Text} (hc : isAsciiSpace c = false) (h : closing? false '$' (c :: s) = none)
    (hskipped : closing? true '$' (c :: s) = some (skipped, rest)) :
    inline (c :: s) = (.unmatched ['$'] :: chars ('$' :: skipped ++ ['$']), rest) := by
  rw [inline, if_neg (Bool.eq_false_iff.1 hc), h, hskipped]

theorem inline_open (hc : isAsciiSpace c = false) (h : closing? true '$' (c :: s) = none)
    (hstrict : closing? false '$' (c :: s) = none) : inline (c :: s) = (.unmatched ['$'] :: chars ['$'], c :: s) := by
  rw [inline, if_neg (Bool.eq_false_iff.1 hc), hstrict, h]

/-! ### The scan -/

/-- The stretches of math in a text from a byte on, where the text from `last` on is not yet given out. -/
def foundFrom (bytes : List UInt8) (last i : Nat) : List Found :=
  if i < bytes.length then
    if stands (· == '\\') bytes i then foundFrom bytes last (i + 2)
    else if stands (· == '$') bytes i then
      if stands (· == '$') bytes (i + 1) then
        match h : displayStop? bytes (i + 2) with
        | some stop => .text last i :: .mark .displayMath (i + 2) stop :: foundFrom bytes (stop + 2) (stop + 2)
        | none => .unmatched ['$', '$'] :: foundFrom bytes last (i + 2)
      else
        match h : inlineStop bytes (i + 1) with
        | .ok stop => .text last i :: .mark .math (i + 1) stop :: foundFrom bytes (stop + 1) (stop + 1)
        | .error refused =>
          (if i + 1 < bytes.length && !stands isAsciiSpace bytes (i + 1) then [.unmatched ['$']] else []) ++
            foundFrom bytes last (refused.getD i + 1)
    else foundFrom bytes last (i + 1)
  else if last < bytes.length then [.text last bytes.length] else []
termination_by bytes.length - i
decreasing_by
  · omega
  · have := le_of_displayStop? h
    omega
  · omega
  · have := le_of_inlineStop.1 stop h
    omega
  · have hle : i ≤ refused.getD i := by
      cases refused with
      | none => exact Nat.le_refl i
      | some k => exact Nat.le_of_succ_le (le_of_inlineStop.2 _ h k rfl)
    omega
  · omega

section Steps

variable {bytes : List UInt8} {last i : Nat}

theorem foundFrom_of_le (h : bytes.length ≤ i) :
    foundFrom bytes last i = if last < bytes.length then [.text last bytes.length] else [] := by
  rw [foundFrom, if_neg (Nat.not_lt.2 h)]

theorem foundFrom_backslash (h : stands (· == '\\') bytes i = true) :
    foundFrom bytes last i = foundFrom bytes last (i + 2) := by
  rw [foundFrom, if_pos (lt_of_stands h), if_pos h]

theorem foundFrom_pair (h : stands (· == '\\') bytes i = false) (hi : stands (· == '$') bytes i = true)
    (hnext : stands (· == '$') bytes (i + 1) = true) : foundFrom bytes last i =
      match displayStop? bytes (i + 2) with
      | some stop => .text last i :: .mark .displayMath (i + 2) stop :: foundFrom bytes (stop + 2) (stop + 2)
      | none => .unmatched ['$', '$'] :: foundFrom bytes last (i + 2) := by
  rw [foundFrom, if_pos (lt_of_stands hi), h, if_neg Bool.false_ne_true, if_pos hi, if_pos hnext]
  split <;> simp only [*]

theorem foundFrom_sign (h : stands (· == '\\') bytes i = false) (hi : stands (· == '$') bytes i = true)
    (hnext : stands (· == '$') bytes (i + 1) = false) : foundFrom bytes last i =
      match inlineStop bytes (i + 1) with
      | .ok stop => .text last i :: .mark .math (i + 1) stop :: foundFrom bytes (stop + 1) (stop + 1)
      | .error refused =>
        (if i + 1 < bytes.length && !stands isAsciiSpace bytes (i + 1) then [.unmatched ['$']] else []) ++
          foundFrom bytes last (refused.getD i + 1) := by
  rw [foundFrom, if_pos (lt_of_stands hi), h, if_neg Bool.false_ne_true, if_pos hi, hnext, if_neg Bool.false_ne_true]
  split <;> simp only [*]

theorem foundFrom_passesOver (bytes : List UInt8) (last : Nat) : PassesOver isSign bytes (foundFrom bytes last) := by
  intro i h
  obtain ⟨hslash, hsign⟩ := not_stands_of_isSign h
  by_cases hi : i < bytes.length
  · rw [foundFrom, if_pos hi, hslash, hsign]
    rfl
  · rw [foundFrom_of_le (by omega), foundFrom_of_le (by omega)]

end Steps

/-! ### The scan of a text -/

variable {used rest : Text} {ps : List Piece}

/-- What is found in the rest of a text gives these pieces. -/
def GivesPieces (s pending : Text) (found : List Found) (ps : List Piece) : Prop :=
  Gives s pending found (cellsOfPieces ps) (ps.filterMap Piece.warning?)

theorem GivesPieces.chars (h : GivesPieces s (pending ++ used) found ps) :
    GivesPieces s pending found (Math.chars used ++ ps) := by
  have hcells : cellsOfPieces (Math.chars used ++ ps) = Span.cellsOf used ++ cellsOfPieces ps := by
    rw [← cells_chars]
    exact List.flatMap_append
  have hnone : (Math.chars used).filterMap Piece.warning? = [] := by
    simp [Math.chars, List.filterMap_map, Function.comp_def, Piece.warning?]
  rw [GivesPieces, hcells, List.filterMap_append, hnone]
  exact Gives.chars h

/-- The scan from a place in a text, where `pending` is not yet given out, finds the pieces of the
rest of the text. -/
def Agrees (s before pending rest : Text) : Prop :=
  GivesPieces s pending (foundFrom (utf8 s) (utf8Length before) (utf8Length (before ++ pending))) (pieces rest)

theorem Agrees.literal (h : Agrees s before (pending ++ used) rest) :
    GivesPieces s pending (foundFrom (utf8 s) (utf8Length before) (utf8Length (before ++ pending ++ used)))
      (Math.chars used ++ pieces rest) := by
  rw [Agrees, ← List.append_assoc before] at h
  exact h.chars

theorem Agrees.mark {opening content closing : Text} {m : Mark} (p : Piece) (kind : Kind)
    (h : Agrees s (before ++ pending ++ opening ++ content ++ closing) [] rest)
    (hs : s = before ++ pending ++ opening ++ content ++ closing ++ rest)
    (hp : p.cells = [.mark m] ∧ p.warning? = none) (hm : kind.mark? content = some m) :
    GivesPieces s pending
      (.text (utf8Length before) (utf8Length (before ++ pending)) ::
        .mark kind (utf8Length (before ++ pending ++ opening)) (utf8Length (before ++ pending ++ opening ++ content)) ::
        foundFrom (utf8 s) (utf8Length (before ++ pending ++ opening ++ content ++ closing))
          (utf8Length (before ++ pending ++ opening ++ content ++ closing)))
      (p :: pieces rest) := by
  rw [Agrees, List.append_nil] at h
  have hs : s = before ++ pending ++ opening ++ content ++ (closing ++ rest) := by rw [hs, List.append_assoc _ closing]
  have hcells : cellsOfPieces (p :: pieces rest) = .mark m :: cellsOfPieces (pieces rest) := by
    rw [cellsOfPieces, List.flatMap_cons, hp.1]
    rfl
  rw [GivesPieces, hcells, List.filterMap_cons_none hp.2]
  exact Gives.mark hs hm h

theorem agrees_nil (before pending : Text) : Agrees (before ++ pending) before pending [] := by
  rw [Agrees, foundFrom_of_le (Nat.le_of_eq (length_utf8 _)), length_utf8, pieces, scan_nil]
  exact gives_end before pending

theorem agrees_char (hs : s = before ++ pending ++ c :: rest) (hc : isSign c = false)
    (h : Agrees s before (pending ++ [c]) rest) : Agrees s before pending (c :: rest) := by
  have hne : c ≠ '\\' ∧ c ≠ '$' := by simpa [isSign] using hc
  have hpass : PassesOver isSign (utf8 s) (foundFrom (utf8 s) (utf8Length before)) := foundFrom_passesOver _ _
  rw [hs] at hpass
  rw [Agrees, pieces_literal (piece?_eq_none hne.2 fun _ _ h => absurd h hne.1)]
  have h := h.literal
  rw [hs] at h ⊢
  rwa [passes_char hpass hc]

theorem agrees_escaped (hs : s = before ++ pending ++ '\\' :: c :: rest)
    (h : Agrees s before (pending ++ ['\\', c]) rest) : Agrees s before pending ('\\' :: c :: rest) := by
  have hpass : PassesOver isSign (utf8 s) (foundFrom (utf8 s) (utf8Length before)) := foundFrom_passesOver _ _
  have h := h.literal
  rw [hs] at h hpass
  rw [Agrees, hs, foundFrom_backslash (stands_sign _ _ _).1, passes_escaped hpass, pieces_escaped]
  exact h

/-- A backslash that ends a text stands for itself. -/
theorem agrees_backslash (before pending : Text) :
    Agrees (before ++ pending ++ ['\\']) before pending ['\\'] := by
  have h := agrees_nil before (pending ++ ['\\'])
  rw [← List.append_assoc] at h
  have hlength : (utf8 (before ++ pending ++ ['\\'])).length = utf8Length (before ++ pending) + 1 := by
    rw [length_utf8, utf8Length_concat]
    rfl
  have hend : foundFrom (utf8 (before ++ pending ++ ['\\'])) (utf8Length before) (utf8Length (before ++ pending)) =
      foundFrom (utf8 (before ++ pending ++ ['\\'])) (utf8Length before)
        (utf8Length (before ++ pending ++ ['\\'])) := by
    rw [foundFrom_backslash (stands_sign (before ++ pending) [] '\\').1, foundFrom_of_le, foundFrom_of_le]
    · rw [length_utf8]
    · omega
  rw [Agrees, pieces_literal rfl, hend]
  exact h.literal

theorem utf8Length_signs (before : Text) : utf8Length (before ++ ['$', '$']) = utf8Length before + 2 :=
  utf8Length_append before ['$', '$']

/-- Two dollar signs start display math, or stand for themselves. -/
theorem agrees_signs (hs : s = before ++ pending ++ '$' :: '$' :: rest)
    (ih : ∀ before' pending' rest', rest'.length ≤ rest.length → s = before' ++ pending' ++ rest' →
      Agrees s before' pending' rest') : Agrees s before pending ('$' :: '$' :: rest) := by
  obtain ⟨hslash, hsign⟩ := stands_sign (before ++ pending) ('$' :: rest) '$'
  have hnext := stands_behind_sign (isAscii_eq (d := '$') (by decide)) (before ++ pending) ('$' :: rest)
  have hstop := displayStop?_utf8 (before ++ pending ++ ['$', '$']) rest
  have htext : before ++ pending ++ ['$', '$'] ++ rest = s := by
    rw [hs, List.append_assoc]
    rfl
  rw [htext, utf8Length_signs] at hstop
  rw [← hs] at hslash hsign hnext
  rw [Agrees, foundFrom_pair hslash hsign hnext, hstop]
  cases hclosing : displayClosing? rest with
  | none =>
    have h := ih before (pending ++ ['$', '$']) rest (Nat.le_refl _) (by rw [← htext]; simp only [List.append_assoc])
    rw [pieces_display_open hclosing, ← utf8Length_signs]
    exact h.literal.unmatched ['$', '$']
  | some found =>
    obtain ⟨tex, after⟩ := found
    have hrest : rest = tex ++ '$' :: '$' :: after := displayClosing?_eq hclosing
    have htext : s = before ++ pending ++ ['$', '$'] ++ tex ++ ['$', '$'] ++ after := by
      rw [← htext, hrest]
      simp
    have h := ih (before ++ pending ++ ['$', '$'] ++ tex ++ ['$', '$']) [] after
      (by rw [hrest]; simp only [List.length_append, List.length_cons]; omega) (by rw [List.append_nil]; exact htext)
    have h := h.mark (.display (trim tex)) .displayMath htext ⟨rfl, rfl⟩ rfl
    rw [pieces_display hclosing]
    simpa only [endOf, Option.map_some, utf8Length_signs] using h

/-- What the scan does at a dollar sign that no other follows. -/
theorem foundFrom_alone (hs : s = before ++ '$' :: rest) (hhead : rest.head? ≠ some '$') (last : Nat) :
    foundFrom (utf8 s) last (utf8Length before) =
      match inlineStop (utf8 s) (utf8Length before + 1) with
      | .ok stop => .text last (utf8Length before) :: .mark .math (utf8Length before + 1) stop ::
          foundFrom (utf8 s) (stop + 1) (stop + 1)
      | .error refused => (if rest.head?.any (!isAsciiSpace ·) then [.unmatched ['$']] else []) ++
          foundFrom (utf8 s) last (refused.getD (utf8Length before) + 1) := by
  subst hs
  obtain ⟨hslash, hsign⟩ := stands_sign before rest '$'
  have hnext : stands (· == '$') (utf8 (before ++ '$' :: rest)) (utf8Length before + 1) = false := by
    rw [stands_behind_sign (isAscii_eq (by decide))]
    cases rest with
    | nil => rfl
    | cons c rest => exact beq_false_of_ne fun hc => hhead (congrArg some hc)
  rw [foundFrom_sign hslash hsign hnext, opens_behind_sign]

/-- A dollar sign that starts no math stands for itself. -/
theorem agrees_blank (hs : s = before ++ pending ++ '$' :: rest) (hopens : rest.head?.any (!isAsciiSpace ·) = false)
    (h : Agrees s before (pending ++ ['$']) rest) : Agrees s before pending ('$' :: rest) := by
  have hhead : rest.head? ≠ some '$' := fun hhead => by
    rw [hhead] at hopens
    cases hopens
  have hstop := inlineStop_eq_error (before ++ pending) rest hopens
  have h := h.literal
  rw [utf8Length_sign] at h
  rw [← hs] at hstop
  rw [Agrees, pieces_sign hhead, foundFrom_alone hs hhead, hstop, hopens, inline_blank hopens]
  exact h

/-- A dollar sign before more than white space starts inline math, or it stands for itself, maybe with
a stretch after it. -/
theorem agrees_sign (hs : s = before ++ pending ++ '$' :: c :: rest) (hc : c ≠ '$') (hspace : isAsciiSpace c = false)
    (ih : ∀ before' pending' rest', rest'.length ≤ (c :: rest).length → s = before' ++ pending' ++ rest' →
      Agrees s before' pending' rest') : Agrees s before pending ('$' :: c :: rest) := by
  have hhead : (c :: rest).head? ≠ some '$' := fun he => hc (Option.some.inj he)
  have hopens : (c :: rest).head?.any (!isAsciiSpace ·) = true := by
    rw [List.head?_cons, Option.any_some, hspace]
    rfl
  have hstop := inlineStop_utf8 (before ++ pending) rest hc hspace
  rw [← hs] at hstop
  rw [Agrees, pieces_sign hhead, foundFrom_alone hs hhead, hstop, if_pos hopens]
  cases hclosing : closing? false '$' (c :: rest) with
  | some found =>
    obtain ⟨tex, after⟩ := found
    have hrest : c :: rest = tex ++ '$' :: after := closing?_eq false hclosing
    have htext : s = before ++ pending ++ ['$'] ++ tex ++ ['$'] ++ after := by
      rw [hs, hrest]
      simp
    have h := ih (before ++ pending ++ ['$'] ++ tex ++ ['$']) [] after
      (by rw [hrest]; simp only [List.length_append, List.length_cons]; omega) (by rw [List.append_nil]; exact htext)
    have h := h.mark (.inline tex) .math htext ⟨rfl, rfl⟩ rfl
    rw [inline_closed hspace hclosing, List.singleton_append]
    simpa only [endOf, Option.map_some, stopOf, utf8Length_sign] using h
  | none =>
    cases hrefused : closing? true '$' (c :: rest) with
    | some found =>
      -- the first sign that only a digit refuses is passed over with what stands before it
      obtain ⟨skipped, after⟩ := found
      have hrest : c :: rest = skipped ++ '$' :: after := closing?_eq true hrefused
      have h := ih before (pending ++ ('$' :: skipped ++ ['$'])) after
        (by rw [hrest]; simp only [List.length_append, List.length_cons]; omega) (by rw [hs, hrest]; simp)
      have hplace : utf8Length (before ++ pending ++ ('$' :: skipped ++ ['$'])) =
          utf8Length (before ++ pending ++ ['$'] ++ skipped) + 1 := by
        rw [← utf8Length_sign]
        simp
      have h := h.literal.unmatched ['$']
      rw [hplace] at h
      rw [inline_refused hspace hclosing hrefused]
      exact h
    | none =>
      have h := (ih before (pending ++ ['$']) (c :: rest) (Nat.le_refl _) (by rw [hs]; simp)).literal.unmatched ['$']
      rw [utf8Length_sign] at h
      rw [inline_open hspace hrefused hclosing]
      exact h

/-- From every place of a text the scan by bytes agrees with the reader. -/
theorem agrees (before pending rest : Text) (hs : s = before ++ pending ++ rest) : Agrees s before pending rest := by
  -- a piece of math may take any stretch of the rest
  induction hn : rest.length using Nat.strong_induction_on generalizing before pending rest with
  | _ n ih =>
  have ih {k : Nat} (hk : k < n) (before' pending' rest' : Text) (hle : rest'.length ≤ k)
      (hs' : s = before' ++ pending' ++ rest') : Agrees s before' pending' rest' :=
    ih rest'.length (Nat.lt_of_le_of_lt hle hk) before' pending' rest' hs' rfl
  cases rest with
  | nil =>
    rw [hs, List.append_nil]
    exact agrees_nil before pending
  | cons c rest =>
    have hlt : rest.length < n := by
      rw [← hn]
      exact Nat.lt_succ_self _
    by_cases hslash : c = '\\'
    · subst hslash
      cases rest with
      | nil =>
        rw [hs]
        exact agrees_backslash before pending
      | cons d rest =>
        exact agrees_escaped hs (ih hlt before (pending ++ ['\\', d]) rest (Nat.le_succ _) (by rw [hs]; simp))
    by_cases hsign : c = '$'
    · subst hsign
      cases rest with
      | nil => exact agrees_blank hs rfl (ih hlt before (pending ++ ['$']) [] (Nat.le_refl _) (by rw [hs]; simp))
      | cons d rest =>
        by_cases hd : d = '$'
        · subst hd
          exact agrees_signs hs (ih (Nat.lt_of_succ_lt hlt))
        by_cases hspace : isAsciiSpace d = true
        · have hblank : (d :: rest).head?.any (!isAsciiSpace ·) = false := by
            rw [List.head?_cons, Option.any_some, hspace]
            rfl
          exact agrees_blank hs hblank (ih hlt before (pending ++ ['$']) (d :: rest) (Nat.le_refl _) (by rw [hs]; simp))
        · exact agrees_sign hs hd (Bool.eq_false_iff.2 hspace) (ih hlt)
    · have h := ih hlt before (pending ++ [c]) rest (Nat.le_refl _) (by rw [hs]; simp)
      exact agrees_char hs (by simp [isSign, hslash, hsign]) h

-- the two bytes that the backslash takes end within a character
example : foundFrom (utf8 "\\é$x$".toList) 0 0 = [.text 0 3, .mark .math 4 5] := by decide +kernel

end Math
end QuartoPretext
