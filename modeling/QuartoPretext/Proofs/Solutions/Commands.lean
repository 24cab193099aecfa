/-
# The lines of a file of solutions

A line is read without its counter commands, which are the leftmost stretches that
look like one, and without white space at its end. It starts an item if a number
with a full stop and some text stand there; so the text of an item is never empty.

Key definitions: `Solution.IsNumeral`, `Solution.IsCommand`, `Solution.commands`,
`Solution.cleaned`, `Solution.Cleans`, `Solution.StartsItem`.
Key theorems: `Solution.counter?_eq_some_iff`, `Solution.cleans_line`,
`Solution.itemOf?_eq_some_iff`.
-/
import QuartoPretext.Solutions
import QuartoPretext.Proofs.Text.Cut
import QuartoPretext.Proofs.Text.Division

namespace QuartoPretext

namespace Solution

open Text

/-! ### Counter commands -/

/-- Digits, with a minus sign before them or without. -/
inductive IsNumeral : Text → Prop
  | plain {digits : Text} : digits ≠ [] → (∀ c ∈ digits, isDigit c = true) → IsNumeral digits
  | negative {digits : Text} : digits ≠ [] → (∀ c ∈ digits, isDigit c = true) → IsNumeral ('-' :: digits)

def command (numeral : Text) : Text := counterOpen ++ numeral ++ ['\x7d']

def IsCommand (s : Text) : Prop := ∃ numeral, IsNumeral numeral ∧ s = command numeral

/-- The numeral of a command. -/
def numeralOf (s : Text) : Text := (s.drop counterOpen.length).dropLast

variable {s t rest numeral : Text}

@[simp] theorem numeralOf_command (numeral : Text) : numeralOf (command numeral) = numeral := by
  rw [numeralOf, command, List.append_assoc, List.drop_left, List.dropLast_concat]

theorem isCommand_ne_nil (h : IsCommand s) : s ≠ [] := by
  obtain ⟨numeral, _, rfl⟩ := h
  exact List.cons_ne_nil _ _

theorem drop_takeWhile (p : Char → Bool) (s : Text) : s.drop (s.takeWhile p).length = s.dropWhile p := by
  nth_rewrite 2 [← List.takeWhile_append_dropWhile (p := p) (l := s)]
  exact List.drop_left

/-- What is read after the opening of a command and its sign: digits, and the brace that closes it. -/
def digits? (sign body : Text) : Option (Text × Text) :=
  match body.takeWhile isDigit, body.dropWhile isDigit with
  | _ :: _, '\x7d' :: after => some (sign ++ body.takeWhile isDigit, after)
  | _, _ => none

theorem counter?_signed {sign body : Text} (h : sign = ['-'] ∨ sign = [] ∧ body.head? ≠ some '-') :
    counter? (counterOpen ++ (sign ++ body)) = digits? sign body := by
  have hsign : (if (sign ++ body).head? == some '-' then ['-'] else []) = sign := by
    rcases h with rfl | ⟨rfl, hhead⟩
    · rfl
    · rw [List.nil_append, if_neg (by simpa using hhead)]
  rw [counter?, dropPrefix?_append]
  simp only [hsign, List.drop_left, ← List.drop_drop, drop_takeWhile]
  rfl

theorem digits?_eq_some_iff {sign body : Text} : digits? sign body = some (numeral, rest) ↔
    ∃ digits, digits ≠ [] ∧ (∀ c ∈ digits, isDigit c = true) ∧ numeral = sign ++ digits ∧
      body = digits ++ '\x7d' :: rest := by
  constructor
  · intro h
    unfold digits? at h
    split at h
    · next c digits after hdigits hafter =>
      cases h
      refine ⟨body.takeWhile isDigit, hdigits ▸ List.cons_ne_nil c digits, fun c hc => List.mem_takeWhile_imp hc, rfl, ?_⟩
      rw [← hafter, List.takeWhile_append_dropWhile]
    · cases h
  · rintro ⟨digits, hne, hdigits, rfl, rfl⟩
    obtain ⟨htake, hdrop⟩ := span_append (t := '\x7d' :: rest) hdigits (by simp [isDigit, Char.isDigit])
    obtain ⟨c, digits, rfl⟩ := List.exists_cons_of_ne_nil hne
    rw [digits?, htake, hdrop]
    rfl

/-- A command at the start of a text is read with all its digits. -/
theorem counter?_eq_some_iff : counter? s = some (numeral, rest) ↔ IsNumeral numeral ∧ s = command numeral ++ rest := by
  constructor
  · intro h
    obtain ⟨inside, hinside⟩ : ∃ inside, s = counterOpen ++ inside := by
      unfold counter? at h
      split at h
      · cases h
      · next inside hinside => exact ⟨inside, (append_eq_of_dropPrefix? hinside).symm⟩
    subst hinside
    by_cases hsign : inside.head? = some '-'
    · obtain ⟨body, rfl⟩ := List.head?_eq_some_iff.1 hsign
      have hread : counter? (counterOpen ++ (['-'] ++ body)) = digits? ['-'] body := counter?_signed (.inl rfl)
      obtain ⟨digits, hne, hdigits, rfl, rfl⟩ := digits?_eq_some_iff.1 (hread.symm.trans h)
      exact ⟨.negative hne hdigits, by simp [command]⟩
    · have hread : counter? (counterOpen ++ ([] ++ inside)) = digits? [] inside := counter?_signed (.inr ⟨rfl, hsign⟩)
      obtain ⟨digits, hne, hdigits, rfl, rfl⟩ := digits?_eq_some_iff.1 (hread.symm.trans h)
      exact ⟨.plain hne hdigits, by simp [command]⟩
  · rintro ⟨hnumeral, rfl⟩
    cases hnumeral with
    | plain hne hdigits =>
      have hhead : (numeral ++ '\x7d' :: rest).head? ≠ some '-' := by
        obtain ⟨c, digits, rfl⟩ := List.exists_cons_of_ne_nil hne
        rintro he
        cases he
        exact absurd (hdigits _ List.mem_cons_self) (by decide)
      have hread := counter?_signed (.inr ⟨rfl, hhead⟩)
      rw [digits?_eq_some_iff.2 ⟨numeral, hne, hdigits, rfl, rfl⟩] at hread
      simpa [command] using hread
    | @negative digits hne hdigits =>
      have hread : counter? (counterOpen ++ (['-'] ++ (digits ++ '\x7d' :: rest))) = digits? ['-'] (digits ++ '\x7d' :: rest) :=
        counter?_signed (.inl rfl)
      rw [digits?_eq_some_iff.2 ⟨digits, hne, hdigits, rfl, rfl⟩] at hread
      simpa [command] using hread

/-- Where no command starts within a text that other text follows, its characters stay. -/
theorem counters_unmatched : ∀ {t : Text} {fuel : Nat}, Unmatched IsCommand t rest → (t ++ rest).length ≤ fuel →
    counters fuel (t ++ rest) = ((counters (fuel - t.length) rest).1, t ++ (counters (fuel - t.length) rest).2)
  | [], _, _, _ => rfl
  | c :: t, 0, _, hfuel => absurd hfuel (Nat.not_succ_le_zero _)
  | c :: t, fuel + 1, h, hfuel => by
    have hnone : counter? (c :: (t ++ rest)) = none := by
      refine Option.eq_none_iff_forall_not_mem.2 fun ⟨numeral, after⟩ hfound => ?_
      obtain ⟨hnumeral, hs⟩ := counter?_eq_some_iff.1 hfound
      exact h.1 _ ⟨numeral, hnumeral, rfl⟩ ⟨after, hs.symm⟩
    rw [List.cons_append, counters, hnone]
    simp only [counters_unmatched h.2 (Nat.le_of_succ_le_succ hfuel), List.length_cons, Nat.add_sub_add_right,
      List.cons_append]

/-- The leftmost commands of a line are read, and the text between them is left. -/
theorem counters_text {d : Division} (hd : d.Leftmost IsCommand) : ∀ {fuel : Nat}, d.text.length ≤ fuel →
    counters fuel d.text = (d.found.map numeralOf, d.between.flatten) := by
  induction d with
  | last t =>
    intro fuel hfuel
    have hread := counters_unmatched hd (by simpa using hfuel)
    rw [List.append_nil] at hread
    rw [Division.text_last, hread]
    cases fuel - t.length <;> simp [counters, Division.found, Division.between]
  | next t m more ih =>
    intro fuel hfuel
    obtain ⟨ht, ⟨numeral, hnumeral, rfl⟩, hmore⟩ := hd
    rw [Division.text_next, List.append_assoc] at hfuel ⊢
    rw [counters_unmatched ht hfuel]
    have hlength : (command numeral ++ more.text).length ≤ fuel - t.length := by
      rw [List.length_append] at hfuel
      omega
    have hread : counter? (command numeral ++ more.text) = some (numeral, more.text) :=
      counter?_eq_some_iff.2 ⟨hnumeral, rfl⟩
    obtain ⟨c, u, hu⟩ := List.exists_cons_of_ne_nil (List.append_ne_nil_of_left_ne_nil
      (isCommand_ne_nil ⟨numeral, hnumeral, rfl⟩) more.text)
    rw [hu] at hlength hread ⊢
    obtain ⟨n, hn⟩ := Nat.exists_eq_add_of_le' (Nat.le_trans (Nat.le_add_left 1 u.length) hlength)
    rw [hn, counters, hread]
    have hmoreLength : more.text.length ≤ n := by
      have := congrArg List.length hu
      rw [List.length_append, List.length_cons] at this
      have hpos := List.length_pos_iff.2 (isCommand_ne_nil ⟨numeral, hnumeral, rfl⟩)
      rw [hn, List.length_cons] at hlength
      omega
    simp only [ih hmore hmoreLength, Division.found, Division.between, List.map_cons, numeralOf_command,
      List.flatten_cons]

/-! ### Items -/

/-- A line starts an item with a text: up to three white space characters, a number
with a full stop, white space and the text stand there. -/
inductive StartsItem : Text → Text → Prop
  | intro {indent digits gap first : Text} : (∀ c ∈ indent, isSpace c = true) → indent.length ≤ 3 → digits ≠ [] →
      (∀ c ∈ digits, isDigit c = true) → gap ≠ [] → (∀ c ∈ gap, isSpace c = true) → first ≠ [] →
      (∀ c ∈ first.head?, isSpace c = false) → StartsItem (indent ++ (digits ++ '.' :: (gap ++ first))) first

variable {first : Text}

theorem StartsItem.ne_nil (h : StartsItem s first) : first ≠ [] := by
  cases h
  assumption

theorem trim_of_endsBare (h : EndsBare s) : trim s = trimStart s :=
  (endsBare_iff _).1 (h.suffix (List.dropWhile_suffix _))

theorem ne_nil_of_endsBare {c : Char} (hc : isSpace c = true) (h : EndsBare (c :: s)) : trimStart s ≠ [] := by
  intro hnil
  have hspaces : ∀ d ∈ c :: s, isSpace d = true := List.forall_mem_cons.2 ⟨hc, List.dropWhile_eq_nil_iff.1 hnil⟩
  have hlast := List.getLast?_eq_some_getLast (List.cons_ne_nil c s)
  have := h _ hlast
  rw [hspaces _ (List.getLast_mem _)] at this
  cases this

/-- A line without white space at its end is read as an item exactly if it starts one. -/
theorem item?_eq_some_iff (h : EndsBare s) : item? s = some first ↔ StartsItem s first := by
  constructor
  · intro hitem
    unfold item? at hitem
    simp only [drop_takeWhile] at hitem
    split at hitem
    · next d digits c rest hdigits hrest =>
      split at hitem
      · next hcond =>
        obtain ⟨hlength, hc⟩ := Bool.and_eq_true_iff.1 hcond
        have hs : s = s.takeWhile isSpace ++ ((d :: digits) ++ '.' :: c :: rest) := by
          rw [← hdigits, ← hrest, List.takeWhile_append_dropWhile, trimStart, List.takeWhile_append_dropWhile]
        have hbare : EndsBare (c :: rest) := by
          refine h.suffix ?_
          rw [hs]
          exact ((List.suffix_cons '.' _).trans (List.suffix_append _ _)).trans (List.suffix_append _ _)
        have hfirst : first = trimStart rest :=
          (Option.some.inj hitem).symm.trans (trim_of_endsBare (hbare.suffix (List.suffix_cons c rest)))
        have hgap : c :: rest = (c :: rest.takeWhile isSpace) ++ first := by
          rw [hfirst, trimStart, List.cons_append, List.takeWhile_append_dropWhile]
        rw [hs, hgap]
        refine .intro (fun c hc => List.mem_takeWhile_imp hc) (of_decide_eq_true hlength) (List.cons_ne_nil d digits)
          (hdigits ▸ fun c hc => List.mem_takeWhile_imp hc) (List.cons_ne_nil _ _)
          (List.forall_mem_cons.2 ⟨hc, fun c hc => List.mem_takeWhile_imp hc⟩) (hfirst ▸ ne_nil_of_endsBare hc hbare)
          fun e he => ?_
        rw [hfirst] at he
        exact of_mem_head_dropWhile he
      · cases hitem
    · cases hitem
  · rintro ⟨hindent, hlength, hdigitsNe, hdigits, hgapNe, hgap, hfirst, hhead⟩
    next indent digits gap =>
    have hdigitHead : ∀ c ∈ (digits ++ '.' :: (gap ++ first)).head?, isSpace c = false := by
      obtain ⟨d, ds, rfl⟩ := List.exists_cons_of_ne_nil hdigitsNe
      rintro c hc
      cases hc
      exact isSpace_of_isDigit (hdigits d List.mem_cons_self)
    obtain ⟨hindentTake, hindentDrop⟩ := span_append hindent hdigitHead
    have hdigitsTake := (span_append (t := '.' :: (gap ++ first)) hdigits (by simp [isDigit, Char.isDigit])).1
    obtain ⟨c, gap, rfl⟩ := List.exists_cons_of_ne_nil hgapNe
    obtain ⟨hc, hgap⟩ := List.forall_mem_cons.1 hgap
    have htext : trim (gap ++ first) = first := by
      have hsuffix : gap ++ first <:+ indent ++ (digits ++ '.' :: ((c :: gap) ++ first)) :=
        (((List.suffix_cons c _).trans (List.suffix_cons '.' _)).trans (List.suffix_append _ _)).trans
          (List.suffix_append _ _)
      rw [trim_of_endsBare (h.suffix hsuffix)]
      exact (span_append hgap hhead).2
    obtain ⟨d, ds, rfl⟩ := List.exists_cons_of_ne_nil hdigitsNe
    simp only [item?, trimStart, hindentTake, hindentDrop, hdigitsTake, List.drop_left]
    show (if decide (indent.length ≤ 3) && isSpace c then some (trim (gap ++ first)) else none) = some first
    rw [htext, if_pos (by simp [hlength, hc])]

/-! ### A line on its own -/

/-- The numerals of the counter commands of a line. -/
def commands (l : Text) : List Text := (counters l.length l).1

/-- A line without its counter commands and without white space at its end. -/
def cleaned (l : Text) : Text := trimEnd (counters l.length l).2

/-- The text of the item that a line starts. -/
def itemOf? (l : Text) : Option Text := item? (cleaned l)

theorem endsBare_cleaned (l : Text) : EndsBare (cleaned l) := endsBare_trimEnd _

/-- The counter commands of a line and what is left of it: its leftmost commands
are taken out, and the white space at the end of the rest. -/
def Cleans (l : Text) (numerals : List Text) (text : Text) : Prop :=
  ∃ d : Division, d.text = l ∧ d.Leftmost IsCommand ∧ numerals = d.found.map numeralOf ∧
    text = trimEnd d.between.flatten

theorem cleans_line (l : Text) : Cleans l (commands l) (cleaned l) := by
  obtain ⟨d, rfl, hd⟩ := Division.exists_leftmost (fun _ => isCommand_ne_nil) l
  refine ⟨d, rfl, hd, ?_, ?_⟩
  · rw [commands, counters_text hd (Nat.le_refl _)]
  · rw [cleaned, counters_text hd (Nat.le_refl _)]

theorem isNumeral_of_mem_commands {l : Text} (h : numeral ∈ commands l) : IsNumeral numeral := by
  obtain ⟨d, -, hd, hnumerals, -⟩ := cleans_line l
  rw [hnumerals] at h
  obtain ⟨command, hcommand, rfl⟩ := List.mem_map.1 h
  obtain ⟨numeral, hnumeral, rfl⟩ := hd.found command hcommand
  rwa [numeralOf_command]

theorem itemOf?_eq_some_iff {l : Text} : itemOf? l = some first ↔ StartsItem (cleaned l) first :=
  item?_eq_some_iff (endsBare_cleaned l)

theorem itemOf?_ne_nil {l : Text} (h : itemOf? l = some first) : first ≠ [] := (itemOf?_eq_some_iff.1 h).ne_nil

end Solution
end QuartoPretext
