/-
# The numbers of solutions

The items of a file of solutions are numbered in order, and the counter commands on
the lines before an item move its number. An item goes on to the line before the
next one. So what a book has is known from the lines of its file: reading them keeps
the items before the open one, the count, and the open item.

Key definitions: `Solution.ItemLine`, `Solution.itemLines`, `Solution.numbered`,
`Solution.Reading.Kept`.
Key theorems: `Solution.Reading.close_foldl`, `SolutionBook.entries_parse`, `SolutionBook.parse_numbered`.
-/
import QuartoPretext.Proofs.Solutions
import QuartoPretext.Proofs.Solutions.Commands

namespace QuartoPretext

namespace Solution

open Text

/-! ### The items of a file -/

/-- A line that starts an item: its text, with the lines before it and after it. -/
structure ItemLine where
  earlier : List Text
  first : Text
  later : List Text
  deriving Repr, DecidableEq

/-- The item lines among some lines that others stand before. -/
def itemLines (earlier : List Text) : List Text → List ItemLine
  | [] => []
  | l :: later =>
    match itemOf? l with
    | some first => ⟨earlier, first, later⟩ :: itemLines (earlier ++ [l]) later
    | none => itemLines (earlier ++ [l]) later

/-- What the lines up to the next item add to one: neither blank lines nor comments. -/
def continuation (later : List Text) : List Text :=
  ((later.takeWhile fun l => (itemOf? l).isNone).map fun l => trim (cleaned l)).filter fun t =>
    !(t.isEmpty || t.head? == some '#')

/-- The whole text of an item. -/
def ItemLine.text (x : ItemLine) : Text := joinWith [' '] (x.first :: continuation x.later)

/-- The sum of the numbers in the counter commands of some lines. -/
def total (ls : List Text) : Nat := ((ls.flatMap commands).map digitsValue).sum

/-- The items of some lines that others stand before, of which `k` are items: how
many items there are up to one, and the numbers of the counter commands before it,
make its number. -/
def numberedAfter (k : Nat) (earlier ls : List Text) : List (Nat × Text) :=
  (itemLines earlier ls).mapIdx fun j x => (k + j + 1 + total x.earlier, x.text)

/-- The items of a file with their numbers. -/
def numbered (ls : List Text) : List (Nat × Text) :=
  (itemLines [] ls).mapIdx fun j x => (j + 1 + total x.earlier, x.text)

/-- The counter commands of a line count forward. -/
def Forward (l : Text) : Prop := ∀ numeral ∈ commands l, ∀ c ∈ numeral, c.isDigit = true

variable {k : Nat} {earlier ls later : List Text} {l first : Text}

theorem total_append (ls ms : List Text) : total (ls ++ ms) = total ls + total ms := by
  simp [total]

theorem numberedAfter_item (h : itemOf? l = some first) : numberedAfter k earlier (l :: later) =
    (k + 1 + total earlier, joinWith [' '] (first :: continuation later)) ::
      numberedAfter (k + 1) (earlier ++ [l]) later := by
  rw [numberedAfter, itemLines, h, List.mapIdx_cons, numberedAfter]
  simp only [Nat.add_assoc, Nat.add_comm 1]
  rfl

theorem numberedAfter_other (h : itemOf? l = none) :
    numberedAfter k earlier (l :: later) = numberedAfter k (earlier ++ [l]) later := by
  rw [numberedAfter, itemLines, h, numberedAfter]

theorem numbered_eq (ls : List Text) : numbered ls = numberedAfter 0 [] ls := by
  simp only [numbered, numberedAfter, Nat.zero_add]

/-- Numbers only grow along a file. -/
theorem lt_of_mem_numberedAfter : ∀ {ls : List Text} {k : Nat} {earlier : List Text},
    ∀ e ∈ numberedAfter k earlier ls, k + total earlier < e.1
  | [], _, _, _, he => absurd he List.not_mem_nil
  | l :: later, k, earlier, e, he => by
    have hgrows := total_append earlier [l]
    cases hitem : itemOf? l with
    | none =>
      rw [numberedAfter_other hitem] at he
      have := lt_of_mem_numberedAfter e he
      omega
    | some first =>
      rw [numberedAfter_item hitem] at he
      rcases List.mem_cons.1 he with rfl | he
      · simp only
        omega
      · have := lt_of_mem_numberedAfter e he
        omega

theorem pairwise_numberedAfter : ∀ {ls : List Text} {k : Nat} {earlier : List Text},
    (numberedAfter k earlier ls).Pairwise fun e e' => e.1 < e'.1
  | [], _, _ => .nil
  | l :: later, k, earlier => by
    cases hitem : itemOf? l with
    | none =>
      rw [numberedAfter_other hitem]
      exact pairwise_numberedAfter
    | some first =>
      rw [numberedAfter_item hitem]
      refine .cons (fun e he => ?_) pairwise_numberedAfter
      have := lt_of_mem_numberedAfter e he
      have := total_append earlier [l]
      simp only
      omega

/-! ### Counting -/

theorem step?_of_digits {numeral : Text} (hne : numeral ≠ []) (hdigits : ∀ c ∈ numeral, c.isDigit = true)
    (hlt : digitsValue numeral < 2 ^ 63) : step? numeral = some (digitsValue numeral : Int) := by
  have hvalue : toNat? numeral = some (digitsValue numeral) := by
    rw [toNat?, if_pos (by simpa [hne] using hdigits)]
  obtain ⟨c, digits, rfl⟩ := List.exists_cons_of_ne_nil hne
  have hc : c ≠ '-' := by
    rintro rfl
    exact absurd (hdigits _ List.mem_cons_self) (by decide)
  unfold step?
  split
  · next hminus => exact absurd (List.cons.inj hminus).1 hc
  · rw [hvalue]
    show Option.filter _ (some (digitsValue (c :: digits) : Int)) = _
    rw [Option.filter_some, if_pos]
    simp only [Bool.and_eq_true, decide_eq_true_eq]
    omega

theorem steps_of_digits : ∀ {numerals : List Text}, (∀ numeral ∈ numerals, numeral ≠ [] ∧ ∀ c ∈ numeral, c.isDigit = true) →
    (numerals.map digitsValue).sum < 2 ^ 63 → steps numerals = ((numerals.map digitsValue).sum : Nat)
  | [], _, _ => rfl
  | numeral :: numerals, h, hlt => by
    obtain ⟨⟨hne, hdigits⟩, hmore⟩ := List.forall_mem_cons.1 h
    rw [List.map_cons, List.sum_cons] at hlt ⊢
    have ih := steps_of_digits hmore (by omega)
    rw [steps] at ih ⊢
    rw [List.filterMap_cons_some (step?_of_digits hne hdigits (by omega)), List.foldr_cons, ih, Nat.cast_add]

theorem steps_of_forward (h : Forward l) (hlt : total [l] < 2 ^ 63) : steps (commands l) = total [l] := by
  have htotal : total [l] = ((commands l).map digitsValue).sum := by simp [total]
  rw [htotal] at hlt ⊢
  refine steps_of_digits (fun numeral hnumeral => ⟨?_, h numeral hnumeral⟩) hlt
  cases isNumeral_of_mem_commands hnumeral with
  | plain hne _ => exact hne
  | negative _ _ => exact List.cons_ne_nil _ _

/-! ### Reading a file -/

namespace Reading

/-- The open item has some text and the largest number so far, and no number is
larger than the count. -/
structure Kept (r : Reading) : Prop where
  text : ∀ e ∈ r.current, e.2 ≠ []
  largest : ∀ e ∈ r.current, ∀ e' ∈ r.closed, e'.1 < e.1
  counted : ∀ e ∈ r.close, (e.1 : Int) ≤ r.count

/-- What the open item becomes where some lines follow. -/
def openItem (r : Reading) (ls : List Text) : List (Nat × Text) :=
  (r.current.map fun e => (e.1, joinWith [' '] (e.2 :: continuation ls))).toList

variable {r : Reading}

theorem put_of_lt {n : Nat} {text : Text} : ∀ {es : List (Nat × Text)}, (∀ e ∈ es, e.1 < n) →
    put n text es = es ++ [(n, text)]
  | [], _ => rfl
  | e :: es, h => by
    obtain ⟨he, hes⟩ := List.forall_mem_cons.1 h
    rw [put, if_neg (by omega), if_neg (by omega), put_of_lt hes, List.cons_append]

theorem close_eq (h : ∀ e ∈ r.current, ∀ e' ∈ r.closed, e'.1 < e.1) : r.close = r.closed ++ r.current.toList := by
  unfold close
  split
  · next n text hcurrent =>
    rw [put_of_lt (h (n, text) hcurrent), hcurrent]
    rfl
  · next hcurrent => rw [hcurrent, Option.toList_none, List.append_nil]

theorem line_item (h : itemOf? l = some first) :
    r.line l = ⟨r.close, r.count + 1 + steps (commands l), (number? (r.count + 1)).map fun n => (n, first)⟩ := by
  have hitem : item? (trimEnd (counters l.length l).2) = some first := h
  simp only [line, hitem]
  rfl

theorem line_other (h : itemOf? l = none) : r.line l =
    { r.continue (trim (cleaned l)) with count := r.count + steps (commands l) } := by
  have hitem : item? (trimEnd (counters l.length l).2) = none := h
  have hcount (t : Text) : (r.continue t).count = r.count := by
    unfold Reading.continue
    split <;> rfl
  simp only [line, hitem]
  rw [hcount]
  rfl

theorem continuation_item (h : itemOf? l = some first) : continuation (l :: later) = [] := by
  rw [continuation, List.takeWhile_cons_of_neg (by simp [h])]
  rfl

theorem continuation_other (h : itemOf? l = none) : continuation (l :: later) =
    (if (trim (cleaned l)).isEmpty || (trim (cleaned l)).head? == some '#' then [] else [trim (cleaned l)]) ++
      continuation later := by
  rw [continuation, List.takeWhile_cons_of_pos (by simp [h]), List.map_cons, List.filter_cons, continuation]
  cases (trim (cleaned l)).isEmpty || (trim (cleaned l)).head? == some '#' <;> rfl

theorem joinWith_cons_cons (sep t u : Text) (ts : List Text) :
    joinWith sep (t :: u :: ts) = joinWith sep ((t ++ sep ++ u) :: ts) := by
  cases ts <;> simp [joinWith, List.intercalate]

/-- A line that starts no item goes to the open one. -/
theorem openItem_other (hr : r.Kept) (h : itemOf? l = none) :
    (r.line l).closed = r.closed ∧ (r.line l).openItem later = r.openItem (l :: later) := by
  rw [line_other h, openItem, openItem, continuation_other h]
  unfold Reading.continue
  split
  · exact ⟨rfl, rfl⟩
  · refine ⟨rfl, ?_⟩
    cases hcurrent : r.current with
    | none => rfl
    | some e =>
      have hne : e.2 ≠ [] := hr.text e hcurrent
      simp [hne, joinWith_cons_cons]

theorem number?_eq (n : Nat) : number? (n : Int) = if n < 2 ^ 32 then some n else none := by
  rw [number?]
  refine if_congr ?_ rfl rfl
  simp only [Bool.and_eq_true, decide_eq_true_eq]
  omega

theorem openItem_of_nil (h : continuation ls = []) : r.openItem ls = r.current.toList := by
  have hjoin (t : Text) : joinWith [' '] [t] = t := by simp [joinWith]
  simp [openItem, h, hjoin]

/-- A line that starts an item closes the open one; the new one is open if its number fits. -/
theorem openItem_item (hr : r.Kept) {n : Nat} (hcount : r.count = n) (h : itemOf? l = some first) :
    (r.line l).closed = r.closed ++ r.openItem (l :: later) ∧
      (r.line l).openItem later =
        [(n + 1, joinWith [' '] (first :: continuation later))].filter fun e => e.1 < 2 ^ 32 := by
  rw [line_item h, openItem_of_nil (continuation_item h), openItem, hcount, ← Nat.cast_succ, number?_eq]
  refine ⟨close_eq hr.largest, ?_⟩
  by_cases hfits : n + 1 < 2 ^ 32
  · simp only [List.filter_cons, List.filter_nil, hfits, decide_true, if_true]
    rfl
  · simp only [List.filter_cons, List.filter_nil, hfits, decide_false, if_false]
    rfl

theorem Kept.item (hr : r.Kept) {n : Nat} (hcount : r.count = n) (hsteps : 0 ≤ steps (commands l))
    (h : itemOf? l = some first) : (r.line l).Kept := by
  rw [line_item h, hcount, ← Nat.cast_succ, number?_eq]
  have hcurrent : ∀ e ∈ (if n.succ < 2 ^ 32 then some n.succ else none).map fun n => (n, first),
      e = (n.succ, first) := by
    split
    · exact fun e he => (Option.some.inj he).symm
    · exact fun e he => by cases he
  have hclosed : ∀ e ∈ r.close, e.1 < n.succ := fun e he => by
    have := hr.counted e he
    omega
  have hlargest : ∀ e ∈ (if n.succ < 2 ^ 32 then some n.succ else none).map (fun n => (n, first)),
      ∀ e' ∈ r.close, e'.1 < e.1 := fun e he e' he' => hcurrent e he ▸ hclosed e' he'
  refine ⟨fun e he => hcurrent e he ▸ itemOf?_ne_nil h, hlargest, fun e he => ?_⟩
  rw [close_eq hlargest, List.mem_append, Option.mem_toList] at he
  rcases he with he | he
  · have := hclosed e he
    simp only
    omega
  · have := congrArg Prod.fst (hcurrent e he)
    simp only at this ⊢
    omega

/-- A line that starts no item changes the text of the open one at most. -/
theorem current_other (h : itemOf? l = none) : ∃ f : Text → Text, (∀ t, t ≠ [] → f t ≠ []) ∧
    (r.line l).current = r.current.map fun e => (e.1, f e.2) := by
  rw [line_other h]
  unfold Reading.continue
  split
  · exact ⟨id, fun _ => id, by simp⟩
  · exact ⟨fun t => if t.isEmpty then trim (cleaned l) else t ++ ' ' :: trim (cleaned l), fun t ht => by simp [ht], rfl⟩

theorem Kept.other (hr : r.Kept) (hsteps : 0 ≤ steps (commands l)) (h : itemOf? l = none) : (r.line l).Kept := by
  obtain ⟨f, hf, hcurrent⟩ := current_other (r := r) h
  have hclosed : (r.line l).closed = r.closed := (@openItem_other [] l r hr h).1
  have hcount : (r.line l).count = r.count + steps (commands l) := by rw [line_other h]
  have hlargest : ∀ e ∈ (r.line l).current, ∀ e' ∈ (r.line l).closed, e'.1 < e.1 := by
    rw [hcurrent, hclosed]
    intro e he e' he'
    obtain ⟨e₀, he₀, rfl⟩ := Option.map_eq_some_iff.1 he
    exact hr.largest e₀ he₀ e' he'
  refine ⟨fun e he => ?_, hlargest, fun e he => ?_⟩
  · rw [hcurrent] at he
    obtain ⟨e₀, he₀, rfl⟩ := Option.map_eq_some_iff.1 he
    exact hf _ (hr.text e₀ he₀)
  · have hcounted := hr.counted
    rw [close_eq hr.largest] at hcounted
    rw [close_eq hlargest, hcurrent, hclosed, List.mem_append, Option.mem_toList] at he
    rw [hcount]
    rcases he with he | he
    · have := hcounted e (List.mem_append_left _ he)
      omega
    · obtain ⟨e₀, he₀, rfl⟩ := Option.map_eq_some_iff.1 he
      have := hcounted e₀ (List.mem_append_right _ (Option.mem_toList.2 he₀))
      simp only
      omega

/-- What is read of some lines: the items before, the open one with what follows
it, and those on the lines whose numbers fit. -/
theorem close_foldl : ∀ {ls : List Text} {r : Reading} {k : Nat} {earlier : List Text}, r.Kept →
    r.count = (k + total earlier : Nat) → (∀ l ∈ ls, Forward l) → total ls < 2 ^ 63 →
      (ls.foldl line r).close = r.closed ++ r.openItem ls ++
        (numberedAfter k earlier ls).filter fun e => e.1 < 2 ^ 32
  | [], r, _, _, hr, _, _, _ => by
    rw [List.foldl_nil, close_eq hr.largest, openItem_of_nil rfl]
    exact (List.append_nil _).symm
  | l :: later, r, k, earlier, hr, hcount, hforward, hlt => by
    obtain ⟨hl, hlater⟩ := List.forall_mem_cons.1 hforward
    have hsplit : total (l :: later) = total [l] + total later := total_append [l] later
    have hgrows := total_append earlier [l]
    have hsteps := steps_of_forward hl (by omega)
    rw [List.foldl_cons]
    cases hitem : itemOf? l with
    | none =>
      obtain ⟨hclosed, hopen⟩ := @openItem_other later l r hr hitem
      have hcount' : (r.line l).count = (k + total (earlier ++ [l]) : Nat) := by
        rw [line_other hitem]
        simp only
        omega
      rw [close_foldl (hr.other (by omega) hitem) hcount' hlater (by omega), hclosed, hopen, numberedAfter_other hitem]
    | some first =>
      obtain ⟨hclosed, hopen⟩ := openItem_item hr hcount hitem
      have hcount' : (r.line l).count = (k + 1 + total (earlier ++ [l]) : Nat) := by
        rw [line_item hitem]
        simp only
        omega
      have hnumber : k + total earlier + 1 = k + 1 + total earlier := by omega
      rw [close_foldl (hr.item hcount (by omega) hitem) hcount' hlater (by omega), hclosed, hopen, hnumber,
        numberedAfter_item hitem, List.append_assoc, ← List.filter_append]
      rfl

end Reading
end Solution

namespace SolutionBook

open Solution

/-- A book has the items of its file under their numbers, as far as these fit in 32 bits. -/
theorem entries_parse {s : Text} (hforward : ∀ l ∈ Text.lines s, Forward l) (hlt : total (Text.lines s) < 2 ^ 63) :
    (parse s).entries = (numbered (Text.lines s)).filter fun e => e.1 < 2 ^ 32 := by
  have hstart : Reading.Kept ⟨[], 0, none⟩ := ⟨nofun, nofun, nofun⟩
  have hread := @Reading.close_foldl (Text.lines s) ⟨[], 0, none⟩ 0 [] hstart rfl hforward hlt
  rwa [← numbered_eq] at hread

/-- **The items of a file are numbered.** A line is read without its counter commands
and the white space at its end, and is an item line if it then starts an item. If the
commands of a file count forward, and its items and what the commands add are fewer
than `2 ^ 63`, the k-th item has the number k and what the commands on the lines
before it add. These numbers ascend from one or more, and the book has exactly the
items whose number fits in 32 bits, each with its text and what the lines up to the
next one add to it. -/
theorem parse_numbered {s : Text} (hforward : ∀ l ∈ Text.lines s, Forward l)
    (htotal : (itemLines [] (Text.lines s)).length + total (Text.lines s) < 2 ^ 63) :
    (∀ l, Cleans l (commands l) (cleaned l) ∧ ∀ first, itemOf? l = some first ↔ StartsItem (cleaned l) first) ∧
      ((numbered (Text.lines s)).Pairwise fun e e' => e.1 < e'.1) ∧ (∀ e ∈ numbered (Text.lines s), 1 ≤ e.1) ∧
      (parse s).entries = (numbered (Text.lines s)).filter fun e => e.1 < 2 ^ 32 := by
  refine ⟨fun l => ⟨cleans_line l, fun _ => itemOf?_eq_some_iff⟩, ?_, fun e he => ?_, entries_parse hforward (by omega)⟩
  · rw [numbered_eq]
    exact pairwise_numberedAfter
  · rw [numbered_eq] at he
    exact Nat.lt_of_le_of_lt (Nat.zero_le _) (lt_of_mem_numberedAfter e he)

/-- A file whose first item moves the number of the next one. -/
def skipping : Text := "1. First \\addtocounter\x7benumi\x7d\x7b2\x7d\n   goes on\n2. Fourth".toList

theorem parse_numbered_skipping : (∀ l ∈ Text.lines skipping, Forward l) ∧
    (itemLines [] (Text.lines skipping)).length + total (Text.lines skipping) < 2 ^ 63 ∧
    numbered (Text.lines skipping) = [(1, "First goes on".toList), (4, "Fourth".toList)] ∧
    (parse skipping).entries = [(1, "First goes on".toList), (4, "Fourth".toList)] := by
  have hforward : ∀ l ∈ Text.lines skipping, Forward l := by
    unfold Forward
    decide +kernel
  have htotal : (itemLines [] (Text.lines skipping)).length + total (Text.lines skipping) < 2 ^ 63 := by
    decide +kernel
  have hnumbered : numbered (Text.lines skipping) = [(1, "First goes on".toList), (4, "Fourth".toList)] := by
    decide +kernel
  refine ⟨hforward, htotal, hnumbered, ?_⟩
  rw [(parse_numbered hforward htotal).2.2.2, hnumbered]
  decide +kernel

end SolutionBook
end QuartoPretext
