/-
# Answer keys

In an answer key each line is a number and its answer. The white space at the end of
a line is gone when it is read, and an item needs some after its full stop: so the
line of an empty answer starts no item. It goes on to the answer before it, and each
later answer gets the number of one before.

Key definitions: `Solution.keyLines`, `Solution.keyTexts`, `SolutionBook.ReadsBack`.
Key theorems: `Solution.itemOf?_keyLine`, `Solution.numberedAfter_keyLines`,
`SolutionBook.parse_keyLines`.
-/
import QuartoPretext.Proofs.Solutions.Numbering

namespace QuartoPretext

namespace Text

variable {P : Text → Prop} {s t rest : Text}

theorem Unmatched.of_append : ∀ {s : Text}, Unmatched P s (t ++ rest) → Unmatched P t rest → Unmatched P (s ++ t) rest
  | [], _, ht => ht
  | _ :: _, hs, ht => ⟨by simpa using hs.1, of_append hs.2 ht⟩

theorem unmatched_of_plain : ∀ {s : Text}, (∀ m, P m → ¬m <:+: s) → Unmatched P s []
  | [], _ => trivial
  | c :: s, h => by
    refine ⟨fun m hm hprefix => ?_, unmatched_of_plain fun m hm hwithin => ?_⟩
    · rw [List.append_nil] at hprefix
      exact h m hm hprefix.isInfix
    · exact h m hm (hwithin.trans (List.suffix_cons c s).isInfix)

theorem joinWith_ne_nil (hs : s ≠ []) : ∀ {sep : Text} {ts : List Text}, joinWith sep (s :: ts) ≠ []
  | _, [] => by simpa [joinWith] using hs
  | _, _ :: _ => by simp [joinWith, List.intercalate, hs]

theorem char_isDigit_of_mem_ofNat {i : Nat} {c : Char} (h : c ∈ ofNat i) : c.isDigit = true :=
  Nat.isDigit_of_mem_toDigits (by decide) (by decide) h

end Text

namespace Solution

open Text

/-- A line of an answer key. -/
def keyLine (i : Nat) (answer : Text) : Text := ofNat i ++ '.' :: ' ' :: answer

/-- The lines of an answer key whose numbers start at `i`. -/
def keyLines (i : Nat) : List Text → List Text
  | [] => []
  | answer :: more => keyLine i answer :: keyLines (i + 1) more

/-- An answer has no white space around it and no counter command in it. -/
structure IsAnswer (answer : Text) : Prop where
  trimmed : trim answer = answer
  plain : ∀ command, IsCommand command → ¬command <:+: answer

/-- The numbers of the empty answers that some answers start with. -/
def markers (i : Nat) : List Text → List Text
  | [] => []
  | [] :: more => (ofNat i ++ ['.']) :: markers (i + 1) more
  | (_ :: _) :: _ => []

/-- What is read as answers: each that is not empty, with the numbers of the empty ones after it. -/
def keyTexts (i : Nat) : List Text → List Text
  | [] => []
  | [] :: more => keyTexts (i + 1) more
  | (c :: answer) :: more => joinWith [' '] ((c :: answer) :: markers (i + 1) more) :: keyTexts (i + 1) more

variable {i k : Nat} {answer : Text} {answers earlier : List Text}

/-! ### A line of a key -/

theorem head?_command {command : Text} (h : IsCommand command) : command.head? = some '\\' := by
  obtain ⟨numeral, _, rfl⟩ := h
  rfl

/-- A trimmed answer without a backslash has no command in it. -/
theorem isAnswer_of_not_mem (htrim : trim answer = answer) (h : '\\' ∉ answer) : IsAnswer answer :=
  ⟨htrim, fun _ hcommand hwithin => h (hwithin.subset (List.mem_of_head? (head?_command hcommand)))⟩

theorem counters_keyLine (h : IsAnswer answer) :
    counters (keyLine i answer).length (keyLine i answer) = ([], keyLine i answer) := by
  have hmark : '\\' ∉ ofNat i ++ ['.', ' '] := by
    intro hmem
    rcases List.mem_append.1 hmem with hmem | hmem
    · exact absurd (char_isDigit_of_mem_ofNat hmem) (by decide)
    · simp at hmem
  have hunmatched : Unmatched IsCommand (keyLine i answer) [] := by
    have := (unmatched_of_not_mem (fun _ => head?_command) hmark).of_append (unmatched_of_plain h.plain)
    simpa [keyLine] using this
  have hread := counters_unmatched hunmatched (Nat.le_of_eq (congrArg List.length (List.append_nil _)))
  simpa [counters] using hread

theorem commands_keyLine (h : IsAnswer answer) : commands (keyLine i answer) = [] := by
  rw [commands, counters_keyLine h]

theorem IsAnswer.endsBare (h : IsAnswer answer) : EndsBare answer := by
  rw [← h.trimmed]
  exact endsBare_trimEnd _

theorem IsAnswer.head (h : IsAnswer answer) : ∀ c ∈ answer.head?, isSpace c = false := by
  intro c hc
  obtain ⟨rest, rfl⟩ := List.head?_eq_some_iff.1 hc
  exact trim_cons h.trimmed

theorem cleaned_keyLine (h : IsAnswer answer) : cleaned (keyLine i answer) =
    if answer = [] then ofNat i ++ ['.'] else keyLine i answer := by
  have hstop : EndsBare (ofNat i ++ ['.']) := by
    intro c hc
    rw [List.getLast?_concat, Option.some.injEq] at hc
    subst hc
    decide
  have hsplit : keyLine i answer = (ofNat i ++ ['.']) ++ ' ' :: answer := by simp [keyLine]
  rw [cleaned, counters_keyLine h, hsplit, trimEnd_append hstop]
  by_cases hempty : answer = []
  · rw [if_pos hempty, hempty]
    exact List.append_nil _
  · have hbare : EndsBare (' ' :: answer) := by
      intro c hc
      refine h.endsBare c ?_
      rwa [List.getLast?_cons, List.getLast?_eq_some_getLast hempty, Option.getD_some,
        ← List.getLast?_eq_some_getLast hempty] at hc
    rw [if_neg hempty, (endsBare_iff _).1 hbare]

/-- The line of an answer starts an item unless the answer is empty. -/
theorem itemOf?_keyLine (h : IsAnswer answer) :
    itemOf? (keyLine i answer) = if answer = [] then none else some answer := by
  have hdigits : ∀ c ∈ ofNat i, isDigit c = true := fun c hc => isDigit_of_char (char_isDigit_of_mem_ofNat hc)
  by_cases hempty : answer = []
  · rw [if_pos hempty, Option.eq_none_iff_forall_not_mem]
    intro first hfirst
    have hstarts := itemOf?_eq_some_iff.1 hfirst
    rw [cleaned_keyLine h, if_pos hempty] at hstarts
    -- The line has no white space left, and an item has some after its full stop.
    have hbare : ∀ c ∈ ofNat i ++ ['.'], isSpace c = false := by
      refine List.forall_mem_append.2 ⟨fun c hc => isSpace_of_isDigit (hdigits c hc), ?_⟩
      decide
    generalize ofNat i ++ ['.'] = s at hstarts hbare
    cases hstarts with
    | @intro indent digits gap _ _ _ _ _ hne hgap _ _ =>
      obtain ⟨c, gap, rfl⟩ := List.exists_cons_of_ne_nil hne
      have hspace := hgap c List.mem_cons_self
      rw [hbare c (by simp)] at hspace
      cases hspace
  · rw [if_neg hempty, itemOf?_eq_some_iff, cleaned_keyLine h, if_neg hempty]
    have hgap : ∀ c ∈ [' '], isSpace c = true := by decide
    have hindent : ∀ c ∈ ([] : Text), isSpace c = true := nofun
    exact .intro hindent (Nat.zero_le _) Nat.toDigits_ne_nil hdigits (List.cons_ne_nil _ _) hgap hempty h.head

/-! ### The lines of a key -/

/-- The lines of empty answers add their numbers to the answer before them. -/
theorem continuation_keyLines : ∀ {answers : List Text} {i : Nat}, (∀ a ∈ answers, IsAnswer a) →
    continuation (keyLines i answers) = markers i answers
  | [], _, _ => rfl
  | [] :: more, i, h => by
    obtain ⟨hanswer, hmore⟩ := List.forall_mem_cons.1 h
    have hnone : itemOf? (keyLine i []) = none := by rw [itemOf?_keyLine hanswer, if_pos rfl]
    obtain ⟨c, digits, hnumber⟩ : ∃ c digits, ofNat i = c :: digits :=
      List.exists_cons_of_ne_nil Nat.toDigits_ne_nil
    have hc : c.isDigit = true := char_isDigit_of_mem_ofNat (i := i) (hnumber ▸ List.mem_cons_self)
    have hcleaned : trim (cleaned (keyLine i [])) = ofNat i ++ ['.'] := by
      rw [trim_of_endsBare (endsBare_cleaned _), cleaned_keyLine hanswer, if_pos rfl, hnumber]
      exact List.dropWhile_cons_of_neg (by simp [isSpace_of_isDigit (isDigit_of_char hc)])
    have hcomment : c ≠ '#' := by
      rintro rfl
      cases hc
    rw [keyLines, Reading.continuation_other hnone, hcleaned, continuation_keyLines hmore, markers, hnumber]
    simp [hcomment]
  | (c :: answer) :: more, i, h => by
    obtain ⟨hanswer, -⟩ := List.forall_mem_cons.1 h
    exact Reading.continuation_item ((itemOf?_keyLine hanswer).trans (if_neg (List.cons_ne_nil c answer)))

theorem total_keyLine (h : IsAnswer answer) : total [keyLine i answer] = 0 := by
  simp [total, commands_keyLine h]

theorem total_keyLines : ∀ {answers : List Text} {i : Nat}, (∀ a ∈ answers, IsAnswer a) → total (keyLines i answers) = 0
  | [], _, _ => rfl
  | answer :: more, i, h => by
    obtain ⟨hanswer, hmore⟩ := List.forall_mem_cons.1 h
    have hsplit : total (keyLines i (answer :: more)) = total [keyLine i answer] + total (keyLines (i + 1) more) :=
      total_append [keyLine i answer] (keyLines (i + 1) more)
    rw [hsplit, total_keyLine hanswer, total_keyLines hmore]

theorem forward_of_mem_keyLines : ∀ {answers : List Text} {i : Nat}, (∀ a ∈ answers, IsAnswer a) →
    ∀ l ∈ keyLines i answers, Forward l
  | [], _, _, _, hl => absurd hl List.not_mem_nil
  | answer :: more, i, h, l, hl => by
    obtain ⟨hanswer, hmore⟩ := List.forall_mem_cons.1 h
    rcases List.mem_cons.1 hl with rfl | hl
    · rw [Forward, commands_keyLine hanswer]
      exact fun _ hnumeral => absurd hnumeral List.not_mem_nil
    · exact forward_of_mem_keyLines hmore l hl

/-- The answers that are read of a key are numbered one after the other. -/
theorem numberedAfter_keyLines : ∀ {answers : List Text} {i k : Nat} {earlier : List Text}, (∀ a ∈ answers, IsAnswer a) →
    total earlier = 0 → numberedAfter k earlier (keyLines i answers) =
      (keyTexts i answers).mapIdx fun j t => (k + j + 1, t)
  | [], _, _, _, _, _ => rfl
  | answer :: more, i, k, earlier, h, htotal => by
    obtain ⟨hanswer, hmore⟩ := List.forall_mem_cons.1 h
    have hearlier : total (earlier ++ [keyLine i answer]) = 0 := by
      rw [total_append, htotal, total_keyLine hanswer]
    cases answer with
    | nil =>
      rw [keyLines, numberedAfter_other ((itemOf?_keyLine hanswer).trans (if_pos rfl)),
        numberedAfter_keyLines hmore hearlier, keyTexts]
    | cons c answer =>
      rw [keyLines, numberedAfter_item ((itemOf?_keyLine hanswer).trans (if_neg (List.cons_ne_nil c answer))),
        continuation_keyLines hmore, numberedAfter_keyLines hmore hearlier, htotal, keyTexts, List.mapIdx_cons]
      simp only [Nat.add_assoc, Nat.add_comm 1, Nat.add_zero]

/-- No text that is read of a key is empty. -/
theorem ne_nil_of_mem_keyTexts : ∀ {answers : List Text} {i : Nat}, ∀ t ∈ keyTexts i answers, t ≠ []
  | [], _, _, ht => absurd ht List.not_mem_nil
  | [] :: more, i, t, ht => @ne_nil_of_mem_keyTexts more (i + 1) t ht
  | (c :: answer) :: more, i, t, ht => by
    rcases List.mem_cons.1 ht with rfl | ht
    · exact joinWith_ne_nil (List.cons_ne_nil c answer)
    · exact ne_nil_of_mem_keyTexts t ht

/-- If no answer is empty, the answers are read as they are. -/
theorem keyTexts_filled : ∀ {answers : List Text} {i : Nat}, (∀ a ∈ answers, a ≠ []) → keyTexts i answers = answers
  | [], _, _ => rfl
  | [] :: _, _, h => absurd rfl (h [] List.mem_cons_self)
  | (c :: answer) :: more, i, h => by
    have hmore := (List.forall_mem_cons.1 h).2
    have hmarkers : markers (i + 1) more = [] := by
      cases more with
      | nil => rfl
      | cons next more =>
        cases next with
        | nil => exact absurd rfl (hmore [] List.mem_cons_self)
        | cons d next => rfl
    rw [keyTexts, hmarkers, keyTexts_filled hmore]
    simp [joinWith]

end Solution

namespace SolutionBook

open Solution

/-- The book has as many solutions as there are answers, each under its number. -/
def ReadsBack (b : SolutionBook) (answers : List Text) : Prop :=
  b.entries.length = answers.length ∧ ∀ i < answers.length, b.get? (i + 1) = answers[i]?

variable {answers : List Text} {s : Text}

theorem lookup_mapIdx : ∀ {ts : List Text} {k i : Nat}, (ts.mapIdx fun j t => (k + j + 1, t)).lookup (k + i + 1) = ts[i]?
  | [], _, _ => by simp
  | t :: ts, k, 0 => by simp
  | t :: ts, k, i + 1 => by
    have ih := @lookup_mapIdx ts (k + 1) i
    have hne : (k + (i + 1) + 1 == k + 0 + 1) = false := by simp
    rw [List.mapIdx_cons, List.lookup_cons, hne, List.getElem?_cons_succ, ← ih]
    simp only [Nat.add_assoc, Nat.add_comm 1]

theorem mem_entries_of_get? {b : SolutionBook} {n : Nat} {t : Text} (h : b.get? n = some t) : (n, t) ∈ b.entries := by
  obtain ⟨before, after, hentries, -⟩ := List.lookup_eq_some_iff.1 h
  rw [hentries]
  exact List.mem_append_right _ List.mem_cons_self

theorem entries_keyLines (hlines : Text.lines s = keyLines 1 answers) (h : ∀ a ∈ answers, IsAnswer a) :
    (parse s).entries = ((keyTexts 1 answers).mapIdx fun j t => (j + 1, t)).filter fun e => e.1 < 2 ^ 32 := by
  have hforward : ∀ l ∈ Text.lines s, Forward l := hlines ▸ forward_of_mem_keyLines h
  have hlt : total (Text.lines s) < 2 ^ 63 := by
    rw [hlines, total_keyLines h]
    decide
  rw [entries_parse hforward hlt, numbered_eq, hlines, numberedAfter_keyLines h rfl]
  simp only [Nat.zero_add]

/-- **An answer key reads back if no answer is empty.** Of an answer key the answers
that are not empty are read, numbered one after the other, each followed by the
numbers of the empty ones after it, as far as their numbers fit in 32 bits. So each
answer is under its own number exactly if none is empty and there are fewer than
`2 ^ 32`. -/
theorem parse_keyLines (hlines : Text.lines s = keyLines 1 answers) (h : ∀ a ∈ answers, IsAnswer a) :
    (parse s).entries = (((keyTexts 1 answers).mapIdx fun j t => (j + 1, t)).filter fun e => e.1 < 2 ^ 32) ∧
      ((parse s).ReadsBack answers ↔ (∀ a ∈ answers, a ≠ []) ∧ answers.length < 2 ^ 32) := by
  have hentries := entries_keyLines hlines h
  have hmem : ∀ e ∈ (parse s).entries, e.2 ≠ [] ∧ e.1 < 2 ^ 32 := by
    rw [hentries]
    intro e he
    obtain ⟨he, hfits⟩ := List.mem_filter.1 he
    obtain ⟨j, hj, rfl⟩ := List.mem_mapIdx.1 he
    exact ⟨ne_nil_of_mem_keyTexts _ (List.getElem_mem hj), of_decide_eq_true hfits⟩
  refine ⟨hentries, fun ⟨_, hget⟩ => ?_, fun ⟨hfilled, hfits⟩ => ?_⟩
  · have hanswer : ∀ i (hi : i < answers.length), answers[i] ≠ [] ∧ i + 1 < 2 ^ 32 := fun i hi =>
      hmem _ (mem_entries_of_get? ((hget i hi).trans (List.getElem?_eq_getElem hi)))
    refine ⟨fun a ha => ?_, ?_⟩
    · obtain ⟨i, hi, rfl⟩ := List.getElem_of_mem ha
      exact (hanswer i hi).1
    · by_contra hlong
      have := (hanswer (answers.length - 1) (by omega)).2
      omega
  · have hall : (parse s).entries = answers.mapIdx fun j t => (j + 1, t) := by
      rw [hentries, keyTexts_filled hfilled, List.filter_eq_self]
      intro e he
      obtain ⟨j, hj, rfl⟩ := List.mem_mapIdx.1 he
      simp only [decide_eq_true_eq]
      omega
    refine ⟨by rw [hall, List.length_mapIdx], fun i hi => ?_⟩
    rw [get?, hall]
    simpa using @lookup_mapIdx answers 0 i

theorem parse_keyLines_two : (parse "1. a\n2. c\n".toList).ReadsBack ["a".toList, "c".toList] := by
  have hlines : Text.lines "1. a\n2. c\n".toList = keyLines 1 ["a".toList, "c".toList] := by decide +kernel
  have hanswers : ∀ a ∈ ["a".toList, "c".toList], IsAnswer a := by
    have htrim : ∀ a ∈ ["a".toList, "c".toList], Text.trim a = a ∧ '\\' ∉ a := by decide +kernel
    exact fun a ha => isAnswer_of_not_mem (htrim a ha).1 (htrim a ha).2
  exact (parse_keyLines hlines hanswers).2.2 (by decide +kernel)

/-- The number of an empty answer is read as a part of the answer before it, and the
answer after it goes by that number. -/
theorem parse_empty_answer : Text.lines "1. a\n2. \n3. c\n".toList = keyLines 1 ["a".toList, [], "c".toList] ∧
    (∀ a ∈ ["a".toList, [], "c".toList], IsAnswer a) ∧
    (parse "1. a\n2. \n3. c\n".toList).entries = [(1, "a 2.".toList), (2, "c".toList)] ∧
    ¬(parse "1. a\n2. \n3. c\n".toList).ReadsBack ["a".toList, [], "c".toList] := by
  have hentries : (parse "1. a\n2. \n3. c\n".toList).entries = [(1, "a 2.".toList), (2, "c".toList)] := by
    decide +kernel
  have htrim : ∀ a ∈ ["a".toList, [], "c".toList], Text.trim a = a ∧ '\\' ∉ a := by decide +kernel
  refine ⟨by decide +kernel, fun a ha => isAnswer_of_not_mem (htrim a ha).1 (htrim a ha).2, hentries, fun hback => ?_⟩
  have hlength := hback.1
  rw [hentries] at hlength
  exact absurd hlength (by decide)

end SolutionBook
end QuartoPretext
