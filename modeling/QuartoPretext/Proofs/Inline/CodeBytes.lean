/-
# Code by bytes

Code spans may be looked for byte by byte: a backtick is one byte, and no byte of
another character is a backtick. A run is as long in bytes as in characters, so the
run that closes it is the same. With the scan for math this makes a reader that cuts
the text at byte offsets as good as one that goes from character to character.

Key definitions: `Code.runLength`, `Code.foundFrom`, `Code.Agrees`.
Key theorems: `Code.runStop?_utf8`, `Code.agrees`, `sound_byteScans`.
-/
import QuartoPretext.Proofs.Block.Renumber
import QuartoPretext.Proofs.Inline.CodeSpans
import QuartoPretext.Proofs.Inline.MathBytes

namespace QuartoPretext

open Text

theorem Text.trim_eq_nil_iff {s : Text} : trim s = [] ↔ isBlank s := by
  constructor
  · intro h
    have hall := List.dropWhile_eq_nil_iff.1 (List.reverse_eq_nil_iff.1 h)
    have hstart : s.dropWhile isSpace = [] := by
      cases hdrop : s.dropWhile isSpace with
      | nil => rfl
      | cons c t =>
        have hmem : c ∈ (trimStart s).reverse := by
          rw [List.mem_reverse, trimStart, hdrop]
          exact List.mem_cons_self
        have hspace : isSpace c = true := hall c hmem
        have hnot := List.head?_dropWhile_not isSpace s
        rw [hdrop, List.head?_cons] at hnot
        exact absurd hspace (by simpa using hnot)
    exact List.all_eq_true.2 (List.dropWhile_eq_nil_iff.1 hstart)
  · exact trim_of_isBlank

namespace Code

open ByteScan

variable {s before pending rest content : Text} {c : Char} {n : Nat}

/-! ### The scan -/

/-- How many backticks stand at a byte offset. -/
def runLength (bytes : List UInt8) (start : Nat) : Nat := ((bytes.drop start).takeWhile (byteIs isTick)).length

theorem runLength_pos {bytes : List UInt8} {i : Nat} (h : stands isTick bytes i = true) : 0 < runLength bytes i := by
  obtain ⟨b, hb, htick⟩ := (Option.any_eq_true ..).1 h
  obtain ⟨hi, hget⟩ := List.getElem?_eq_some_iff.1 hb
  rw [runLength, List.drop_eq_getElem_cons hi, hget, List.takeWhile_cons_of_pos htick]
  exact Nat.succ_pos _

/-- The byte offset of the first run of exactly `n` backticks. -/
def runStop? (bytes : List UInt8) (n j : Nat) : Option Nat :=
  if j < bytes.length then
    if _h : stands isTick bytes j then
      if runLength bytes j = n then some j else runStop? bytes n (j + runLength bytes j)
    else runStop? bytes n (j + 1)
  else none
termination_by bytes.length - j
decreasing_by
  · have := runLength_pos _h
    omega
  · omega

theorem le_of_runStop? {bytes : List UInt8} {j stop : Nat} (h : runStop? bytes n j = some stop) : j ≤ stop := by
  fun_induction runStop? bytes n j with
  | case1 j =>
    cases h
    exact Nat.le_refl _
  | case2 j _ _ _ ih => exact Nat.le_of_add_right_le (ih h)
  | case3 j _ _ ih => exact Nat.le_of_succ_le (ih h)
  | case4 => cases h

/-- The code spans in a text from a byte offset on, where the text from `last` on is not yet given out. -/
def foundFrom (bytes : List UInt8) (last i : Nat) : List Found :=
  if i < bytes.length then
    if _h : stands isTick bytes i then
      match _hstop : runStop? bytes (runLength bytes i) (i + runLength bytes i) with
      | some stop =>
        .text last i :: .mark .code (i + runLength bytes i) stop ::
          foundFrom bytes (stop + runLength bytes i) (stop + runLength bytes i)
      | none => foundFrom bytes last (i + runLength bytes i)
    else foundFrom bytes last (i + 1)
  else if last < bytes.length then [.text last bytes.length] else []
termination_by bytes.length - i
decreasing_by
  · have := runLength_pos _h
    have := le_of_runStop? _hstop
    omega
  · have := runLength_pos _h
    omega
  · omega

/-! ### Steps of the scan -/

section Steps

variable {bytes : List UInt8} {last i j : Nat}

theorem runStop?_of_le (h : bytes.length ≤ j) : runStop? bytes n j = none := by
  rw [runStop?, if_neg (Nat.not_lt.2 h)]

theorem runStop?_run (h : stands isTick bytes j = true) : runStop? bytes n j =
    if runLength bytes j = n then some j else runStop? bytes n (j + runLength bytes j) := by
  rw [runStop?, if_pos (lt_of_stands h), dif_pos h]

theorem runStop?_passesOver (bytes : List UInt8) (n : Nat) : PassesOver isTick bytes (runStop? bytes n) := by
  intro j h
  by_cases hj : j < bytes.length
  · rw [runStop?, if_pos hj, dif_neg (Bool.eq_false_iff.1 h)]
  · rw [runStop?_of_le (by omega), runStop?_of_le (by omega)]

theorem foundFrom_of_le (h : bytes.length ≤ i) :
    foundFrom bytes last i = if last < bytes.length then [.text last bytes.length] else [] := by
  rw [foundFrom, if_neg (Nat.not_lt.2 h)]

theorem foundFrom_run (h : stands isTick bytes i = true) : foundFrom bytes last i =
    match runStop? bytes (runLength bytes i) (i + runLength bytes i) with
    | some stop =>
      .text last i :: .mark .code (i + runLength bytes i) stop ::
        foundFrom bytes (stop + runLength bytes i) (stop + runLength bytes i)
    | none => foundFrom bytes last (i + runLength bytes i) := by
  rw [foundFrom, if_pos (lt_of_stands h), dif_pos h]
  split <;> simp only [*]

theorem foundFrom_passesOver (bytes : List UInt8) (last : Nat) : PassesOver isTick bytes (foundFrom bytes last) := by
  intro i h
  by_cases hi : i < bytes.length
  · rw [foundFrom, if_pos hi, dif_neg (Bool.eq_false_iff.1 h)]
  · rw [foundFrom_of_le (by omega), foundFrom_of_le (by omega)]

end Steps

/-! ### The scan of a text -/

theorem isAscii_isTick : IsAscii isTick := isAscii_eq (by decide)

theorem takeWhile_utf8 : ∀ s : Text, ((utf8 s).takeWhile (byteIs isTick)).length = (s.takeWhile isTick).length
  | [] => rfl
  | c :: s => by
    obtain ⟨b, more, hbytes⟩ := List.exists_cons_of_ne_nil (String.utf8EncodeChar_ne_nil (c := c))
    have hb : byteIs isTick b = isTick c := byteIs_of_mem isAscii_isTick (by rw [hbytes]; exact List.mem_cons_self)
    show ((String.utf8EncodeChar c ++ utf8 s).takeWhile (byteIs isTick)).length = _
    by_cases hc : isTick c = true
    · have hmore : more = [] := by
        have hlength := congrArg List.length hbytes
        rw [String.length_utf8EncodeChar, utf8Size_of_ascii (isAscii_isTick c hc)] at hlength
        exact List.length_eq_zero_iff.1 (Nat.succ.inj hlength).symm
      rw [hbytes, hmore, List.singleton_append, List.takeWhile_cons_of_pos (hb.trans hc), List.takeWhile_cons_of_pos hc,
        List.length_cons, List.length_cons, takeWhile_utf8 s]
    · rw [hbytes, List.cons_append, List.takeWhile_cons_of_neg (by rw [hb]; exact hc), List.takeWhile_cons_of_neg hc]
      rfl

/-- A run of backticks is as long in bytes as in characters. -/
theorem runLength_utf8 (before : Text) (hrest : rest.head? ≠ some '\x60') :
    runLength (utf8 (before ++ (ticks n ++ rest))) (utf8Length before) = n := by
  rw [runLength, utf8_append, ← length_utf8, List.drop_left, takeWhile_utf8, (takeWhile_ticks hrest).1, length_ticks]

theorem utf8Length_ticks : ∀ (n : Nat) (s : Text), utf8Length (s ++ ticks n) = utf8Length s + n
  | 0, s => congrArg utf8Length (List.append_nil s)
  | n + 1, s => by
    show utf8Length (s ++ '\x60' :: ticks n) = _
    rw [List.append_cons, utf8Length_ticks n, utf8Length_concat, Nat.add_assoc, Nat.add_comm n]
    rfl

theorem stands_tick (before rest : Text) (c : Char) :
    stands isTick (utf8 (before ++ c :: rest)) (utf8Length before) = isTick c :=
  stands_head isAscii_isTick before (c :: rest)

theorem passes_plain {α : Type} {f : Nat → α} (h : PassesOver isTick (utf8 (before ++ c :: rest)) f)
    (hc : isTick c = false) : f (utf8Length before) = f (utf8Length (before ++ [c])) :=
  h.behind isAscii_isTick (Nat.zero_le _) fun htick => absurd htick (Bool.eq_false_iff.1 hc)

/-- The closing run is at the same place for bytes and for characters. -/
theorem runStop?_utf8 (n : Nat) (before rest : Text) :
    runStop? (utf8 (before ++ rest)) n (utf8Length before) = endOf before (closing? n rest) := by
  cases rest with
  | nil =>
    rw [List.append_nil, runStop?_of_le (Nat.le_of_eq (length_utf8 before)), closing?]
    rfl
  | cons c t =>
    by_cases hc : c = '\x60'
    · obtain ⟨k, u, ht, hu⟩ := exists_ticks t
      have hrest : c :: t = ticks (k + 1) ++ u := by
        rw [hc, ht]
        rfl
      have hstands := stands_tick before t c
      have hlength := runLength_utf8 (n := k + 1) before hu
      have ih := runStop?_utf8 n (before ++ ticks (k + 1)) u
      rw [runStop?_run (by rw [hstands, hc]; rfl), hrest, hlength, closing?_ticks hu]
      by_cases hn : k + 1 = n
      · rw [if_pos hn, if_pos hn, endOf_nil]
      · rw [if_neg hn, if_neg hn]
        rw [List.append_assoc, utf8Length_ticks] at ih
        rw [ih]
        exact (endOf_prepend before (ticks (k + 1)) (closing? n u)).symm
    · have htick : isTick c = false := beq_false_of_ne hc
      have ih := runStop?_utf8 n (before ++ [c]) t
      rw [List.append_assoc] at ih
      rw [passes_plain (runStop?_passesOver _ n) htick, closing?, if_neg (by rw [htick]; exact Bool.false_ne_true)]
      exact ih.trans (endOf_prepend before [c] (closing? n t)).symm
termination_by rest.length
decreasing_by
  · subst ht
    rw [List.length_cons, List.length_append]
    omega
  · exact Nat.lt_succ_self _

/-- One space at each end is cut off by bytes as it is by characters. -/
theorem unpadded?_eq (content : Text) : unpadded? content = some (unpad content) := by
  unfold unpadded? unpad
  cases hb : between? [' '] [' '] content with
  | none =>
    refine if_neg fun ⟨hlen, hhead, hlast, _⟩ => ?_
    obtain ⟨t, rfl⟩ := List.head?_eq_some_iff.1 hhead
    cases t with
    | nil => exact absurd hlen (by decide)
    | cons c t =>
      rw [List.getLast?_cons_cons] at hlast
      obtain ⟨inner, hinner⟩ := List.getLast?_eq_some_iff.1 hlast
      rw [hinner, ← List.cons_append, between?_spaces] at hb
      cases hb
  | some inner =>
    obtain rfl := eq_of_between? hb
    by_cases hblank : isBlank (' ' :: inner ++ [' ']) = true
    · have htrim := trim_eq_nil_iff.2 hblank
      rw [if_neg fun h => h.2.2.2 htrim]
      exact congrArg some (if_pos hblank).symm
    · have hne : inner ≠ [] := by
        rintro rfl
        exact hblank rfl
      have hpos := utf8Length_pos hne
      have hlength : utf8Length (' ' :: inner ++ [' ']) = utf8Length ([' '] ++ inner) + 1 := utf8Length_concat _ ' '
      have hlong : 2 < utf8Length (' ' :: inner ++ [' ']) := by
        rw [hlength, utf8Length_append]
        show 2 < 1 + utf8Length inner + 1
        omega
      rw [if_pos ⟨hlong, rfl, List.getLast?_concat, fun h => hblank (trim_eq_nil_iff.1 h)⟩, hlength,
        Nat.add_sub_cancel]
      exact (slice?_append [' '] inner [' ']).trans (congrArg some (if_neg hblank).symm)

/-! ### The code spans of a text -/

/-- The scan from a place in a text, where `pending` is not yet given out, finds the code spans of the
rest of the text. -/
def Agrees (s before pending rest : Text) : Prop :=
  Gives s pending (foundFrom (utf8 s) (utf8Length before) (utf8Length (before ++ pending))) (protect rest) []

theorem agrees_nil (before pending : Text) : Agrees (before ++ pending) before pending [] := by
  rw [Agrees, foundFrom_of_le (Nat.le_of_eq (length_utf8 _)), length_utf8, protect, scan_nil]
  exact gives_end before pending

theorem agrees_plain (hs : s = before ++ pending ++ c :: rest) (hc : isTick c = false)
    (h : Agrees s before (pending ++ [c]) rest) : Agrees s before pending (c :: rest) := by
  have hpass : PassesOver isTick (utf8 s) (foundFrom (utf8 s) (utf8Length before)) := foundFrom_passesOver _ _
  have hprotect : protect (c :: rest) = Span.cellsOf [c] ++ protect rest := scan_none (by simp [find?, hc])
  rw [hs] at hpass
  rw [Agrees, hprotect]
  rw [Agrees, ← List.append_assoc before] at h
  rw [hs] at h ⊢
  rw [passes_plain hpass hc]
  exact h.chars

/-- A run of backticks starts a code span, or stands for itself. -/
theorem agrees_ticks (hs : s = before ++ pending ++ (ticks n ++ rest)) (hn : 0 < n) (hrest : rest.head? ≠ some '\x60')
    (ih : ∀ before' pending' rest', rest'.length ≤ rest.length → s = before' ++ pending' ++ rest' →
      Agrees s before' pending' rest') : Agrees s before pending (ticks n ++ rest) := by
  have hstands : stands isTick (utf8 s) (utf8Length (before ++ pending)) = true := by
    obtain ⟨k, rfl⟩ := Nat.exists_eq_succ_of_ne_zero hn.ne'
    rw [hs]
    exact stands_tick (before ++ pending) (ticks k ++ rest) '\x60'
  have hrun := runLength_utf8 (n := n) (before ++ pending) hrest
  have hstop := runStop?_utf8 n (before ++ pending ++ ticks n) rest
  have hfind := find?_ticks hn hrest
  rw [List.append_assoc _ (ticks n), utf8Length_ticks, ← hs] at hstop
  rw [← hs] at hrun
  rw [Agrees, foundFrom_run hstands, hrun, hstop]
  cases hclosing : closing? n rest with
  | none =>
    have h := ih before (pending ++ ticks n) rest (Nat.le_refl _) (by rw [hs]; simp only [List.append_assoc])
    rw [hclosing] at hfind
    rw [Agrees, ← List.append_assoc before, utf8Length_ticks] at h
    rw [protect, scan_found hfind (length_lt_ticks hn (Nat.le_refl _))]
    exact h.chars
  | some found =>
    obtain ⟨content, after⟩ := found
    have hcontent : rest = content ++ ticks n ++ after := closing?_eq n hclosing
    have htext : s = before ++ pending ++ ticks n ++ content ++ (ticks n ++ after) := by
      rw [hs, hcontent]
      simp only [List.append_assoc]
    have hle : after.length ≤ rest.length := by
      rw [hcontent]
      exact (List.suffix_append _ after).length_le
    have h := ih (before ++ pending ++ ticks n ++ content ++ ticks n) [] after hle
      (by rw [List.append_nil, List.append_assoc _ (ticks n) after]; exact htext)
    have hmark : Kind.code.mark? content = some (.code (unpad content)) := by
      rw [Kind.mark?, unpadded?_eq, Option.map_some]
    rw [Agrees, List.append_nil, utf8Length_ticks] at h
    rw [hclosing] at hfind
    rw [protect, scan_found hfind (length_lt_ticks hn hle), ← utf8Length_ticks]
    exact Gives.mark htext hmark h

/-- From every place of a text the scan by bytes agrees with the reader. -/
theorem agrees (before pending rest : Text) (hs : s = before ++ pending ++ rest) : Agrees s before pending rest := by
  -- a code span may take any stretch of the rest
  induction hn : rest.length using Nat.strong_induction_on generalizing before pending rest with
  | _ n ih =>
  cases rest with
  | nil =>
    rw [hs, List.append_nil]
    exact agrees_nil before pending
  | cons c t =>
    by_cases hc : c = '\x60'
    · obtain ⟨k, rest, ht, hrest⟩ := exists_ticks t
      have htext : c :: t = ticks (k + 1) ++ rest := by
        rw [hc, ht]
        rfl
      have hlt : rest.length < n := by
        rw [← hn, htext]
        exact length_lt_ticks (Nat.succ_pos k) (Nat.le_refl _)
      rw [htext] at hs ⊢
      exact agrees_ticks hs (Nat.succ_pos k) hrest fun before' pending' rest' hle hs' =>
        ih rest'.length (Nat.lt_of_le_of_lt hle hlt) before' pending' rest' hs' rfl
    · have hlt : t.length < n := by
        rw [← hn]
        exact Nat.lt_succ_self _
      exact agrees_plain hs (beq_false_of_ne hc) (ih t.length hlt before (pending ++ [c]) t (by rw [hs]; simp) rfl)

end Code

/-! ### Both scans -/

/-- The scans for math and for code cut a text only where a character starts or the text ends, and
they find what the readers of characters find. -/
theorem sound_byteScans (s : Text) :
    ByteScan.Sound s (Math.foundFrom (utf8 s) 0 0) (Math.protect s) (Math.warnings s) ∧
      ByteScan.Sound s (Code.foundFrom (utf8 s) 0 0) (Code.protect s) [] := by
  have hmath : Math.Agrees s [] [] s := Math.agrees [] [] s rfl
  have hcode : Code.Agrees s [] [] s := Code.agrees [] [] s rfl
  exact ⟨hmath.sound, hcode.sound⟩

end QuartoPretext
