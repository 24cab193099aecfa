/-
# Lines keep their numbers and their order

The lines of a body have the numbers of lines that the block took, in the same
order, and so have the items of a list one after the other. An item goes by the
number of its first line, which is kept where that line is dropped because it
is blank.

Key definitions: `Line.numbers`, `ListItem.numbers`, `ListItem.Placed`, `Block.numbers`,
`Block.Placed`.
Key theorems: `ListReader.scan_numbers`, `Block.read_numbers`, `Block.read_numbers_tail`.
-/
import QuartoPretext.Proofs.Block.Bare

namespace QuartoPretext

/-- The numbers of some lines in order. -/
def Line.numbers (ls : List Line) : List Nat := ls.map (·.number)

/-- The numbers of the lines of an item, of which the first is that of the item. -/
def ListItem.numbers (i : ListItem) : List Nat := i.line :: Line.numbers i.body.tail

/-- An item starts on the line that it goes by. -/
def ListItem.Placed (i : ListItem) : Prop := ∀ l ∈ i.body.head?, l.number = i.line

/-- The numbers of the lines that a block keeps to be read. -/
def Block.numbers : Block → List Nat
  | fence _ _ body | div _ _ _ body => Line.numbers body
  | list l => l.items.flatMap ListItem.numbers
  | _ => []

/-- The items of a list start on the lines that they go by. -/
def Block.Placed (b : Block) : Prop := ∀ l, b = .list l → ∀ i ∈ l.items, i.Placed

theorem Line.numbers_append (as bs : List Line) : numbers (as ++ bs) = numbers as ++ numbers bs := List.map_append

theorem Line.numbers_sublist {as bs : List Line} (h : as.Sublist bs) : (numbers as).Sublist (numbers bs) := h.map _

/-- The lines in the body of an item are lines of the item. -/
theorem ListItem.Placed.numbers_body {i : ListItem} (h : i.Placed) : (Line.numbers i.body).Sublist i.numbers := by
  rw [ListItem.numbers]
  unfold ListItem.Placed at h
  cases hbody : i.body with
  | nil => exact List.nil_sublist _
  | cons first more =>
    have hfirst : first.number = i.line := h first (by rw [hbody]; rfl)
    rw [Line.numbers, List.map_cons, hfirst]
    exact List.Sublist.refl _

namespace ListReader

open Line

theorem body_close (i : Item) : i.close.body <+: i.item.body := by
  rw [← List.reverse_suffix, Item.close, List.reverse_reverse]
  exact List.dropWhile_suffix _

theorem numbers_close (i : Item) : i.close.numbers.Sublist i.item.numbers :=
  .cons_cons _ (numbers_sublist (body_close i).sublist.tail)

theorem placed_close {i : Item} (h : i.item.Placed) : i.close.Placed := by
  intro l hl
  refine h l ?_
  obtain ⟨more, hmore⟩ := body_close i
  rw [← hmore, List.head?_append, hl]
  rfl

theorem numbers_add {i : Item} (hi : i.item.body ≠ []) (l : Line) :
    (i.add l).item.numbers = i.item.numbers ++ [l.number] := by
  rw [ListItem.numbers, Item.add, List.tail_append_of_ne_nil hi, numbers_append]
  rfl

theorem placed_add {i : Item} (hi : i.item.body ≠ []) (h : i.item.Placed) (l : Line) : (i.add l).item.Placed := by
  intro k hk
  refine h k ?_
  rwa [Item.add, List.head?_append, Option.or_of_isSome (List.isSome_head?.2 hi)] at hk

/-- The items one after the other, and what is left, keep the order of the lines. -/
theorem scan_numbers (f : Frame) (i : Item) (gap : Bool) (ls : List Line) (hi : i.item.body ≠ []) :
    ((scan f i gap ls).items.flatMap ListItem.numbers ++ numbers (scan f i gap ls).rest).Sublist
      (i.item.numbers ++ numbers ls) := by
  have only (ls : List Line) (n : Option Nat) : ((Outcome.mk [i.close] n ls).items.flatMap ListItem.numbers ++
      numbers (Outcome.mk [i.close] n ls).rest).Sublist (i.item.numbers ++ numbers ls) := by
    simpa using (numbers_close i).append_right (numbers ls)
  unfold scan
  match ls with
  | [] => exact only [] none
  | l :: rest =>
    have hnext : (numbers (rest.dropWhile Line.isBlank)).Sublist (numbers rest) :=
      numbers_sublist (List.dropWhile_sublist _)
    have add (l' : Line) (hl : l'.number = l.number) {ms : List Nat} (hms : ms.Sublist (numbers rest)) :
        ((i.add l').item.numbers ++ ms).Sublist (i.item.numbers ++ numbers (l :: rest)) := by
      rw [numbers_add hi, hl, List.append_assoc]
      exact (hms.cons_cons l.number).append_left _
    have add_ne (l' : Line) : (i.add l').item.body ≠ [] := by simp [Item.add]
    simp only
    split
    · split
      · exact only _ none
      · split
        · exact (scan_numbers f i true _ hi).trans ((hnext.cons l.number).append_left _)
        · split
          · exact (scan_numbers f _ true _ (add_ne _)).trans (add ⟨l.number, []⟩ rfl hnext)
          · exact only _ none
    · split
      · next marker first column hm =>
        split
        · have ih := scan_numbers f (Item.start l.number marker first column) false rest (List.cons_ne_nil _ _)
          rw [Outcome.cons, List.flatMap_cons, List.append_assoc]
          exact (numbers_close i).append ih
        · exact only _ _
      · split
        · exact (scan_numbers f _ gap rest (add_ne _)).trans (add (l.dedent _) rfl (.refl _))
        · exact only _ none
termination_by ls.length
decreasing_by
  all_goals
    have := (List.dropWhile_sublist Line.isBlank (l := rest)).length_le
    simp only [List.length_cons]
    omega

theorem scan_placed (f : Frame) (i : Item) (gap : Bool) (ls : List Line) (hi : i.item.body ≠ [])
    (hp : i.item.Placed) : ∀ j ∈ (scan f i gap ls).items, j.Placed := by
  have only : ∀ j ∈ [i.close], j.Placed := by
    intro j hj
    rw [List.mem_singleton.1 hj]
    exact placed_close hp
  unfold scan
  match ls with
  | [] => exact only
  | l :: rest =>
    have add_ne (l' : Line) : (i.add l').item.body ≠ [] := by simp [Item.add]
    simp only
    split
    · split
      · exact only
      · split
        · exact scan_placed f i true _ hi hp
        · split
          · exact scan_placed f _ true _ (add_ne _) (placed_add hi hp _)
          · exact only
    · split
      · next marker first column hm =>
        have hstart : (Item.start l.number marker first column).item.Placed := by simp [Item.start, ListItem.Placed]
        split
        · intro j hj
          rcases List.mem_cons.1 hj with rfl | hj
          · exact only _ (List.mem_singleton.2 rfl)
          · exact scan_placed f _ false rest (List.cons_ne_nil _ _) hstart j hj
        · exact only
      · split
        · exact scan_placed f _ gap rest (add_ne _) (placed_add hi hp _)
        · exact only
termination_by ls.length
decreasing_by
  all_goals
    have := (List.dropWhile_sublist Line.isBlank (l := rest)).length_le
    simp only [List.length_cons]
    omega

theorem read_numbers (l : Line) (following : List Line) :
    ((read l following).1.items.flatMap ListItem.numbers ++ numbers (read l following).2).Sublist
      (numbers (l :: following)) := by
  unfold read
  split
  · exact .cons _ (.refl _)
  · next marker first column hm =>
    have h := scan_numbers ⟨l.indent, ListStyle.ofMarker marker⟩ (Item.start l.number marker first column) false
      following (List.cons_ne_nil _ _)
    exact h

theorem read_placed (l : Line) (following : List Line) : ∀ j ∈ (read l following).1.items, j.Placed := by
  unfold read
  split
  · exact List.forall_mem_nil _
  · next marker first column hm =>
    exact scan_placed _ _ _ _ (List.cons_ne_nil _ _) (by simp [Item.start, ListItem.Placed])

end ListReader

namespace Block

/-- The lines in a block, but for a list, are lines that follow its first one. -/
theorem read_numbers_tail {l : Line} {following more rest : List Line} {b : Block}
    (h : read l following = .ok (b, rest)) (hmore : following = more ++ rest) (hb : ∀ lb, b ≠ .list lb) :
    b.numbers.Sublist (Line.numbers more) := by
  have inside {body rest : List Line} (hmore : following = more ++ rest) (h : ∃ c, following = body ++ c :: rest) :
      (Line.numbers body).Sublist (Line.numbers more) := by
    obtain ⟨c, hc⟩ := h
    have : more = body ++ [c] := List.append_cancel_right (hmore.symm.trans (hc.trans (by simp)))
    rw [this]
    exact Line.numbers_sublist (List.sublist_append_left _ _)
  unfold read at h
  simp only at h
  split at h
  case h_4 =>
    split at h
    · next hf =>
      cases h
      exact inside hmore (Extent.fenceBody?_eq hf)
    · cases h
  case h_5 =>
    split at h
    · next hd =>
      cases h
      exact inside hmore (Extent.divBody?_eq hd)
    · cases h
  case h_7 =>
    unfold readMath at h
    repeat' split at h
    all_goals
      cases h
      try exact List.nil_sublist _
  case h_13 =>
    simp only [Except.ok.injEq, Prod.mk.injEq] at h
    exact absurd h.1.symm (hb _)
  all_goals
    cases h
    try exact List.nil_sublist _

theorem read_placed {l : Line} {following rest : List Line} {b : Block}
    (h : read l following = .ok (b, rest)) : b.Placed := by
  rintro lb rfl
  have hplaced := ListReader.read_placed l following
  rwa [(read_list h).2] at hplaced

/-- The lines in a block and the lines after it keep the order of the lines that
the block was read from. -/
theorem read_numbers {l : Line} {following rest : List Line} {b : Block} (h : read l following = .ok (b, rest)) :
    (b.numbers ++ Line.numbers rest).Sublist (Line.numbers (l :: following)) := by
  by_cases hb : ∃ lb, b = .list lb
  · obtain ⟨lb, rfl⟩ := hb
    have hlist := ListReader.read_numbers l following
    rwa [(read_list h).2] at hlist
  · obtain ⟨more, rfl⟩ := rest_suffix h
    have htail := read_numbers_tail h rfl fun lb hlb => hb ⟨lb, hlb⟩
    have hall : Line.numbers (l :: (more ++ rest)) = l.number :: (Line.numbers more ++ Line.numbers rest) := by
      rw [← Line.numbers_append]
      rfl
    rw [hall]
    exact (htail.append_right _).cons _

end Block
end QuartoPretext
