/-
# The bodies of items

The body of an item is made from its lines alone: the text after the marker, then
the lines that continue it without the indentation of that text, where blank lines
that follow each other leave one empty line. Blank lines at the end are dropped.
An item takes all lines up to one that stands where the markers do, and so does a
list.

Key definitions: `ListReader.laid`, `ListReader.Item.extend`, `ListItem.MadeFrom`.
Key theorems: `ListReader.scan_made`, `ListReader.read_made`, `ListReader.filled_laid`.
-/
import QuartoPretext.Proofs.Block.ListLines

namespace QuartoPretext

open Text

namespace ListReader

/-! ### Lines as they stand in a body -/

/-- The lines that continue an item, as they stand in its body. `gap` tells whether
a blank line comes before them. -/
def laid (column : Nat) (gap : Bool) : List Line → List Line
  | [] => []
  | l :: ls =>
    if l.isBlank then
      if gap then laid column true ls else ⟨l.number, []⟩ :: laid column true ls
    else l.dedent (min column l.indent) :: laid column false ls

/-- The item with the lines that continue it. -/
def Item.extend (i : Item) (ls : List Line) : Item :=
  { i with item := { i.item with body := i.item.body ++ laid i.column false ls } }

variable {column : Nat} {gap : Bool} {l : Line} {as ls : List Line}

theorem laid_cons_of_filled (hl : l.isBlank = false) (ls : List Line) :
    laid column gap (l :: ls) = l.dedent (min column l.indent) :: laid column false ls := by
  rw [laid, if_neg (by simp [hl])]

/-- Blank lines after a blank line leave nothing. -/
theorem laid_blanks : ∀ {as : List Line}, (∀ k ∈ as, k.isBlank) → ∀ ls : List Line,
    laid column true (as ++ ls) = laid column true ls
  | [], _, _ => rfl
  | k :: as, h, ls => by
    obtain ⟨hk, has⟩ := List.forall_mem_cons.1 h
    rw [List.cons_append, laid, if_pos hk, if_pos rfl, laid_blanks has]

/-- A line that is not blank stands alone, whatever comes before it. -/
theorem laid_append_cons (hl : l.isBlank = false) (ls : List Line) : ∀ (gap : Bool) (as : List Line),
    laid column gap (as ++ l :: ls) = laid column gap as ++ laid column false (l :: ls)
  | gap, [] => by rw [List.nil_append, laid_cons_of_filled hl, laid_cons_of_filled hl]; rfl
  | gap, k :: as => by
    rw [List.cons_append, laid, laid]
    split
    · split
      · exact laid_append_cons hl ls true as
      · rw [laid_append_cons hl ls true as, List.cons_append]
    · rw [laid_append_cons hl ls false as, List.cons_append]

/-- What is written is kept, without some of its indentation. -/
theorem filled_laid (column : Nat) : ∀ (gap : Bool) (ls : List Line),
    Line.filled (laid column gap ls) = (Line.filled ls).map fun k => k.dedent (min column k.indent)
  | _, [] => rfl
  | gap, l :: ls => by
    unfold laid
    split
    · next hblank =>
      rw [Line.filled_cons_of_blank hblank]
      split
      · exact filled_laid column true ls
      · rw [Line.filled_cons_of_blank rfl]
        exact filled_laid column true ls
    · next hblank =>
      have hl : l.isBlank = false := by simpa using hblank
      have hdedent : (l.dedent (min column l.indent)).isBlank = false :=
        (Line.dedent_dedentOf _ l).isBlank.trans hl
      rw [Line.filled_cons hl, Line.filled_cons hdedent, List.map_cons, filled_laid column false ls]

theorem isBlank_of_mem_laid : ∀ {gap : Bool} {ls : List Line}, (∀ k ∈ ls, k.isBlank) →
    ∀ k ∈ laid column gap ls, k.isBlank
  | _, [], _, _, hk => by cases hk
  | gap, l :: ls, h, k, hk => by
    obtain ⟨hl, hls⟩ := List.forall_mem_cons.1 h
    rw [laid, if_pos hl] at hk
    split at hk
    · exact isBlank_of_mem_laid hls k hk
    · rcases List.mem_cons.1 hk with rfl | hk
      · rfl
      · exact isBlank_of_mem_laid hls k hk

/-! ### One item -/

namespace Item

variable {i : Item}

theorem extend_nil (i : Item) : i.extend [] = i := by
  simp [extend, laid]

theorem extend_cons_of_filled (hl : l.isBlank = false) (ls : List Line) :
    i.extend (l :: ls) = (i.add (l.dedent (min i.column l.indent))).extend ls := by
  simp only [extend, add, laid_cons_of_filled hl, List.append_assoc, List.singleton_append]

/-- Blank lines before a line that is not blank leave an empty one. -/
theorem extend_blanks (hl : l.isBlank) (has : ∀ k ∈ as, k.isBlank) (hls : ∀ k ∈ ls.head?, k.isBlank = false) :
    i.extend (l :: as ++ ls) = (i.add ⟨l.number, []⟩).extend ls := by
  have hnext : laid i.column true ls = laid i.column false ls := by
    cases ls with
    | nil => rfl
    | cons k ls => rw [laid_cons_of_filled (hls k rfl), laid_cons_of_filled (hls k rfl)]
  have hlaid : laid i.column false (l :: as ++ ls) = ⟨l.number, []⟩ :: laid i.column false ls := by
    rw [List.cons_append, laid, if_pos hl, if_neg Bool.false_ne_true, laid_blanks has, hnext]
  simp only [extend, add, hlaid, List.append_assoc, List.singleton_append]

/-- Blank lines at the end leave nothing. -/
theorem close_extend_blanks (h : ∀ k ∈ ls, k.isBlank) : (i.extend ls).close = i.close := by
  have hlaid : ∀ k ∈ (laid i.column false ls).reverse, k.isBlank := fun k hk =>
    isBlank_of_mem_laid h k (List.mem_reverse.1 hk)
  simp only [close, extend, List.reverse_append, List.dropWhile_append_of_pos hlaid]

end Item

end ListReader

/-! ### The items of a list -/

/-- The item was made from its lines, in a list that they are held against. -/
def ListItem.MadeFrom (f : ListReader.Frame) (i : ListItem) (p : ItemLines) : Prop :=
  f.isSibling p.marker ∧ ∃ marker first column, ListReader.marker? p.marker = some (marker, first, column) ∧
    i = ((ListReader.Item.start p.marker.number marker first column).extend p.more).close

namespace ListReader

/-- What is read from some lines with an open item: this item from the lines up to
the next marker, the items after it from theirs, and nothing from a line on that
stands where the markers do. -/
def Outcome.MadeFrom (f : Frame) (i : Item) (ls : List Line) (o : Outcome) : Prop :=
  ∃ more ps items, ls = more ++ ps.flatMap ItemLines.all ++ o.rest ∧ o.items = (i.extend more).close :: items ∧
    List.Forall₂ (ListItem.MadeFrom f) items ps ∧ ∀ k ∈ (o.rest.dropWhile Line.isBlank).head?, f.atMargin k

variable {f : Frame} {i : Item} {o : Outcome} {as ls : List Line} {l k : Line}

namespace Outcome.MadeFrom

theorem stop (h : ∀ k ∈ (ls.dropWhile Line.isBlank).head?, f.atMargin k) (i : Item) (n : Option Nat) :
    (Outcome.mk [i.close] n ls).MadeFrom f i ls :=
  ⟨[], [], [], rfl, by rw [Item.extend_nil], .nil, h⟩

theorem stop_line (hl : l.isBlank = false) (hmargin : f.atMargin l) (i : Item) (n : Option Nat) :
    (Outcome.mk [i.close] n (l :: ls)).MadeFrom f i (l :: ls) := by
  refine stop ?_ i n
  rw [List.dropWhile_cons_of_neg (by simp [hl])]
  rintro k ⟨⟩
  exact hmargin

theorem line (hl : l.isBlank = false) (h : o.MadeFrom f (i.add (l.dedent (min i.column l.indent))) ls) :
    o.MadeFrom f i (l :: ls) := by
  obtain ⟨more, ps, items, rfl, hitems, hmade, hstop⟩ := h
  exact ⟨l :: more, ps, items, rfl, by rw [hitems, Item.extend_cons_of_filled hl], hmade, hstop⟩

theorem blanks (hl : l.isBlank) (has : ∀ k ∈ as, k.isBlank) (hk : k.isBlank = false)
    (h : o.MadeFrom f (i.add ⟨l.number, []⟩) (k :: ls)) : o.MadeFrom f i (l :: as ++ k :: ls) := by
  obtain ⟨more, ps, items, hlines, hitems, hmade, hstop⟩ := h
  have hmore : ∀ j ∈ more.head?, j.isBlank = false := by
    cases more with
    | nil => nofun
    | cons j more =>
      obtain ⟨rfl, -⟩ := List.cons.inj hlines
      rintro _ ⟨⟩
      exact hk
  exact ⟨l :: as ++ more, ps, items, by rw [hlines, List.append_assoc, List.append_assoc, List.append_assoc],
    by rw [hitems, Item.extend_blanks hl has hmore], hmade, hstop⟩

/-- An item ends where the next one starts, and blank lines between them leave nothing. -/
theorem item {marker first : Text} {column : Nat} (has : ∀ k ∈ as, k.isBlank) (hl : f.isSibling l)
    (hm : marker? l = some (marker, first, column)) (h : o.MadeFrom f (Item.start l.number marker first column) ls) :
    (o.cons i).MadeFrom f i (as ++ l :: ls) := by
  obtain ⟨more, ps, items, rfl, hitems, hmade, hstop⟩ := h
  refine ⟨as, ⟨l, more⟩ :: ps, o.items, ?_, ?_, ?_, hstop⟩
  · simp only [List.flatMap_cons, ItemLines.all, Outcome.cons, List.append_assoc, List.cons_append]
  · rw [Outcome.cons, Item.close_extend_blanks has]
  · rw [hitems]
    exact .cons ⟨hl, marker, first, column, hm, rfl⟩ hmade

end Outcome.MadeFrom

theorem scan_sibling (hl : f.isSibling l) (i : Item) (gap : Bool) (rest : List Line) :
    ∃ marker first column, marker? l = some (marker, first, column) ∧
      scan f i gap (l :: rest) = (scan f (Item.start l.number marker first column) false rest).cons i := by
  simp only [Frame.isSibling, Bool.and_eq_true, Option.any_eq_true, beq_iff_eq] at hl
  obtain ⟨hmargin, ⟨marker, first, column⟩, hm, hstyle⟩ := hl
  refine ⟨marker, first, column, hm, ?_⟩
  rw [scan, if_neg (by simp [not_isBlank_of_marker? hm]), hm, Option.filter_some, if_pos hmargin]
  exact if_pos hstyle

theorem scan_made (f : Frame) (i : Item) (gap : Bool) (ls : List Line) : (scan f i gap ls).MadeFrom f i ls := by
  match ls with
  | [] =>
    rw [scan]
    exact .stop (by simp) i none
  | l :: rest =>
    by_cases hblank : l.isBlank
    · have hblanks : ∀ k ∈ rest.takeWhile Line.isBlank, k.isBlank := fun k hk => List.mem_takeWhile_imp hk
      have hsplit : l :: rest = l :: rest.takeWhile Line.isBlank ++ rest.dropWhile Line.isBlank := by
        rw [List.cons_append, List.takeWhile_append_dropWhile]
      have hdrop : (l :: rest).dropWhile Line.isBlank = rest.dropWhile Line.isBlank := List.dropWhile_cons_of_pos hblank
      rw [scan, if_pos hblank]
      cases hnext : rest.dropWhile Line.isBlank with
      | nil => exact .stop (by simp [hdrop, hnext]) i none
      | cons next after =>
        rw [hnext] at hsplit hdrop
        have hlength : (next :: after).length ≤ rest.length := hnext ▸ (List.dropWhile_sublist Line.isBlank).length_le
        have hfilled : next.isBlank = false := by
          have hhead := List.head?_dropWhile_not Line.isBlank rest
          simpa [hnext] using hhead
        simp only
        split
        · next hsibling =>
          obtain ⟨marker, first, column, hm, hscan⟩ := scan_sibling hsibling i true after
          rw [hscan, hsplit]
          exact .item (List.forall_mem_cons.2 ⟨hblank, hblanks⟩) hsibling hm
            (scan_made f (Item.start next.number marker first column) false after)
        · split
          · rw [hsplit]
            exact .blanks hblank hblanks hfilled (scan_made f (i.add ⟨l.number, []⟩) true (next :: after))
          · next hindent =>
            refine .stop ?_ i none
            rw [hdrop]
            rintro k ⟨⟩
            simp only [Frame.atMargin, decide_eq_true_eq]
            omega
    · have hl : l.isBlank = false := by simpa using hblank
      rw [scan, if_neg hblank]
      cases hm : (marker? l).filter fun _ => f.atMargin l with
      | some m =>
        obtain ⟨marker, first, column⟩ := m
        obtain ⟨hmarker, hmargin⟩ := Option.filter_eq_some_iff.1 hm
        simp only
        split
        · next hstyle =>
          have hsibling : f.isSibling l := by simp [Frame.isSibling, hmargin, hmarker, hstyle]
          exact .item (List.forall_mem_nil _) hsibling hmarker
            (scan_made f (Item.start l.number marker first column) false rest)
        · exact .stop_line hl hmargin i _
      | none =>
        simp only
        split
        · exact .line hl (scan_made f _ gap rest)
        · next hstop =>
          simp only [Bool.or_eq_true, Bool.not_eq_true', not_or, Bool.not_eq_false] at hstop
          exact .stop_line hl hstop.1 i none
termination_by ls.length
decreasing_by
  all_goals
    simp only [List.length_cons] at *
    omega

/-- A list is made from the lines of its items, and it takes all lines up to one that
stands where the markers do. -/
theorem read_made {l : Line} (following : List Line) (hm : (marker? l).isSome) : ∃ ps,
    l :: following = ps.flatMap ItemLines.all ++ (read l following).2 ∧
      List.Forall₂ (ListItem.MadeFrom ⟨l.indent, (read l following).1.style⟩) (read l following).1.items ps ∧
      ∀ k ∈ ((read l following).2.dropWhile Line.isBlank).head?, k.indent ≤ l.indent + 1 := by
  obtain ⟨⟨marker, first, column⟩, hm⟩ := Option.isSome_iff_exists.1 hm
  rw [read_of_marker? following hm]
  obtain ⟨more, ps, items, hlines, hitems, hmade, hstop⟩ :=
    scan_made ⟨l.indent, ListStyle.ofMarker marker⟩ (Item.start l.number marker first column) false following
  have hsibling : Frame.isSibling ⟨l.indent, ListStyle.ofMarker marker⟩ l := by
    simp [Frame.isSibling, Frame.atMargin, hm]
  refine ⟨⟨l, more⟩ :: ps, ?_, ?_, fun k hk => by simpa [Frame.atMargin] using hstop k hk⟩
  · rw [List.flatMap_cons, ItemLines.all, List.cons_append, List.cons_append, ← hlines]
  · show List.Forall₂ _ (scan _ _ false following).items _
    rw [hitems]
    exact .cons ⟨hsibling, marker, first, column, hm, rfl⟩ hmade

variable {items : List ListItem} {ps : List ItemLines} {rest : List Line}

/-- Items start with a marker at the margin. -/
theorem head_atMargin (h : List.Forall₂ (ListItem.MadeFrom f) items ps)
    (hstop : ∀ k ∈ (rest.dropWhile Line.isBlank).head?, f.atMargin k) :
    ∀ k ∈ ((ps.flatMap ItemLines.all ++ rest).dropWhile Line.isBlank).head?, f.atMargin k := by
  cases h with
  | nil => exact hstop
  | @cons i p _ ps hmade _ =>
    obtain ⟨hsibling, marker, first, column, hm, -⟩ := hmade
    rw [List.flatMap_cons, ItemLines.all, List.cons_append, List.cons_append,
      List.dropWhile_cons_of_neg (by simp [not_isBlank_of_marker? hm])]
    rintro k ⟨⟩
    simp only [Frame.isSibling, Bool.and_eq_true] at hsibling
    exact hsibling.1

/-- Each item of a list has its lines, up to a line at the margin. -/
theorem exists_made {j : ListItem} (h : List.Forall₂ (ListItem.MadeFrom f) items ps)
    (hstop : ∀ k ∈ (rest.dropWhile Line.isBlank).head?, f.atMargin k) (hj : j ∈ items) : ∃ before p tail,
      ps.flatMap ItemLines.all ++ rest = before ++ p.marker :: (p.more ++ tail) ∧ j.MadeFrom f p ∧
        ∀ k ∈ (tail.dropWhile Line.isBlank).head?, f.atMargin k := by
  induction h with
  | nil => cases hj
  | @cons i p items ps hmade hmore ih =>
    rw [List.flatMap_cons, ItemLines.all, List.append_assoc, List.cons_append]
    rcases List.mem_cons.1 hj with rfl | hj
    · exact ⟨[], p, _, rfl, hmade, head_atMargin hmore hstop⟩
    · obtain ⟨before, q, tail, hlines, hq, htail⟩ := ih hj
      exact ⟨p.marker :: p.more ++ before, q, tail, by rw [hlines]; simp, hq, htail⟩

end ListReader
end QuartoPretext
