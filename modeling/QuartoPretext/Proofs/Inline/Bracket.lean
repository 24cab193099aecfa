/-
# The cells of brackets

Reading a cell adds that cell at the end, whatever brackets are open; enclosing
the innermost bracket puts marks in the place of the two brackets. So the rules
for notes and links lose no mark.

Key theorems: `Bracketing.cells_shut`, `Bracketing.cells_enclose`,
`Note.read_marks`, `Link.read_keeps`, `Link.read_marks`.
-/
import QuartoPretext.Inline.Link
import QuartoPretext.Inline.Note
import QuartoPretext.Proofs.Inline.Rewrite

namespace QuartoPretext

namespace Bracketing

theorem cells_eq (b : Bracketing) :
    b.cells = (b.current ++ b.pending.flatMap fun br => .char '[' :: br.before).reverse := by
  have hfold : ∀ (pending : List Bracket) (inner : List Cell),
      pending.foldl (fun inner br => inner ++ .char '[' :: br.before) inner =
        inner ++ pending.flatMap fun br => .char '[' :: br.before := by
    intro pending
    induction pending with
    | nil => simp
    | cons br more ih => simp [ih]
  rw [cells, hfold]

theorem cells_start (n : Nat) : (start n).cells = [] := rfl

theorem cells_push (b : Bracketing) (c : Cell) : (b.push c).cells = b.cells ++ [c] := by
  simp [cells_eq, push]

theorem cells_openBracket (b : Bracketing) (isNote : Bool) :
    (b.openBracket isNote).cells = b.cells ++ [.char '['] := by
  simp [cells_eq, openBracket]

/-- The cells before the innermost bracket, the bracket and the cells after it. -/
theorem cells_pending {b : Bracketing} {br : Bracket} {more : List Bracket} (h : b.pending = br :: more)
    (n : Nat) : b.cells = (Bracketing.mk more br.before n).cells ++ .char '[' :: b.current.reverse := by
  simp [cells_eq, h]

theorem cells_shut (b : Bracketing) : b.shut.cells = b.cells ++ [.char ']'] := by
  unfold shut
  split
  · exact cells_push b _
  · next br more h => simp [cells_eq, h]

theorem cells_enclose (b : Bracketing) (before : List Cell) (more : List Bracket)
    (openMark closeMark : Nat → Mark) :
    (b.enclose before more openMark closeMark).cells =
      (Bracketing.mk more before b.nextScope).cells ++
        .mark (openMark b.nextScope) :: b.current.reverse ++ [.mark (closeMark b.nextScope)] := by
  simp [cells_eq, enclose]

/-- Enclosing the innermost bracket adds two marks. -/
theorem marks_enclose {b : Bracketing} {br : Bracket} {more : List Bracket} (h : b.pending = br :: more)
    (openMark closeMark : Nat → Mark) :
    (Cell.marks b.cells).Sublist (Cell.marks (b.enclose br.before more openMark closeMark).cells) := by
  rw [cells_pending h b.nextScope, cells_enclose]
  simp only [Cell.marks_append, Cell.marks_char, Cell.marks_mark, List.append_assoc, List.cons_append]
  refine List.Sublist.append_left ?_ _
  exact (List.sublist_append_left _ _).cons _

end Bracketing

/-! ### Notes -/

namespace Note

/-- Before every bracket that opens a note stands a caret, and one stands where
the reader was told so. -/
structure Careted (caret : Bool) (b : Bracketing) : Prop where
  current : caret = true → ∃ more, b.current = .char '^' :: more
  pending : ∀ br ∈ b.pending, br.isNote = true → ∃ more, br.before = .char '^' :: more

theorem careted_start (n : Nat) : Careted false (.start n) :=
  ⟨nofun, nofun⟩

variable {b : Bracketing} {caret : Bool}

theorem Careted.push (h : Careted caret b) (c : Cell) : Careted (c.isChar '^') (b.push c) :=
  ⟨fun hc => ⟨b.current, by rw [Cell.eq_of_isChar hc]; rfl⟩, h.pending⟩

theorem Careted.openBracket (h : Careted caret b) : Careted false (b.openBracket caret) := by
  refine ⟨nofun, ?_⟩
  intro br hbr
  rcases List.mem_cons.1 hbr with rfl | hbr
  · exact h.current
  · exact h.pending br hbr

theorem Careted.shut (h : Careted caret b) : Careted false b.shut := by
  refine ⟨nofun, ?_⟩
  unfold Bracketing.shut
  split
  · exact h.pending
  · next br more hp => exact fun br' hbr => h.pending br' (hp ▸ List.mem_cons_of_mem br hbr)

theorem Careted.close (h : Careted caret b) : Careted false (close b) := by
  unfold Note.close
  split
  · next br more hp =>
    split
    · exact ⟨nofun, fun br' hbr => h.pending br' (hp ▸ List.mem_cons_of_mem br hbr)⟩
    · exact h.shut
  · exact h.shut

theorem close_marks (h : Careted caret b) : (Cell.marks b.cells).Sublist (Cell.marks (close b).cells) := by
  have hshut : (Cell.marks b.cells).Sublist (Cell.marks b.shut.cells) := by
    rw [Bracketing.cells_shut, Cell.marks_append]
    exact List.sublist_append_left _ _
  unfold close
  split
  · next br more hp =>
    split
    · next hnote =>
      -- what goes with the bracket is its caret
      obtain ⟨before, hbefore⟩ := h.pending br (hp ▸ List.mem_cons_self) hnote
      have hdrop : Cell.marks (b.enclose br.before.tail more .noteOpen .noteClose).cells =
          Cell.marks (b.enclose br.before more .noteOpen .noteClose).cells := by
        rw [Bracketing.cells_enclose, Bracketing.cells_enclose, hbefore]
        simp [Bracketing.cells_eq]
      rw [hdrop]
      exact Bracketing.marks_enclose hp _ _
    · exact hshut
  · exact hshut

/-- Reading cells as notes keeps their marks. -/
theorem read_marks : ∀ (cs : List Cell) (escaped : Bool) {caret : Bool} {b : Bracketing}, Careted caret b →
    (Cell.marks b.cells ++ Cell.marks cs).Sublist (Cell.marks (read caret escaped b cs).cells)
  | [], _, _, b, _ => by simp [read]
  | c :: cs, escaped, caret, b, h => by
    unfold read
    split
    · next hc =>
      rw [Cell.eq_of_isChar (Bool.and_eq_true_iff.1 hc).1]
      have ih := read_marks cs (Cell.escapesNext (.char '[') escaped) h.openBracket
      rwa [Bracketing.cells_openBracket, Cell.marks_append, Cell.marks_char, Cell.marks_nil,
        List.append_nil] at ih
    · split
      · next hc =>
        rw [Cell.eq_of_isChar (Bool.and_eq_true_iff.1 hc).1]
        have ih := read_marks cs (Cell.escapesNext (.char ']') escaped) h.close
        exact ((close_marks h).append_right _).trans ih
      · have ih := read_marks cs (c.escapesNext escaped) (h.push c)
        rw [Bracketing.cells_push, Cell.marks_append, List.append_assoc, ← Cell.marks_append] at ih
        exact ih

theorem resolve_marks (nextScope : Nat) (spans : List Span) :
    (Span.marks spans).Sublist (Span.marks (resolve nextScope spans).1) := by
  have h := read_marks (Span.toCells spans) false (careted_start nextScope)
  rw [Bracketing.cells_start, Cell.marks_nil, List.nil_append, Span.marks_toCells,
    ← Span.marks_ofCells] at h
  exact h

end Note

/-! ### Links -/

namespace Link

theorem inner?_marks : ∀ {cells after : List Cell} {depth : Nat} {s : Text},
    inner? depth cells = some (s, after) → Cell.marks cells = Cell.marks after
  | [], _, _, _, h => by simp [inner?] at h
  | .mark _ :: _, _, _, _, h => by simp [inner?] at h
  | .char c :: rest, after, depth, s, h => by
    have keep {depth : Nat} (h : ((inner? depth rest).map fun p => (c :: p.1, p.2)) = some (s, after)) :
        Cell.marks rest = Cell.marks after := by
      obtain ⟨⟨s', a⟩, h', e⟩ := Option.map_eq_some_iff.1 h
      cases e
      exact inner?_marks h'
    rw [Cell.marks_char]
    unfold inner? at h
    simp only at h
    split at h
    · split at h
      · cases h
        rfl
      · exact keep h
    · split at h
      · exact keep h
      · split at h
        · cases h
        · exact keep h

theorem target?_marks {cells after : List Cell} {href : Text} (h : target? cells = some (href, after)) :
    Cell.marks cells = Cell.marks after := by
  unfold target? at h
  split at h
  · split at h
    · next hi =>
      obtain ⟨_, _, e⟩ := Option.map_eq_some_iff.1 h
      cases e
      rw [Cell.marks_char]
      exact inner?_marks hi
    · cases h
  · cases h

theorem close_marks {b : Bracketing} {br : Bracket} {more : List Bracket} (h : b.pending = br :: more)
    (href : Text) : (Cell.marks b.cells).Sublist (Cell.marks (close b br more href).cells) := by
  unfold close
  split
  · next hempty =>
    rw [Bracketing.cells_pending h b.nextScope, List.isEmpty_iff.1 hempty]
    have hcells : (Bracketing.mk more (.mark (.bareLink href) :: br.before) b.nextScope).cells =
        (Bracketing.mk more br.before b.nextScope).cells ++ [.mark (.bareLink href)] :=
      Bracketing.cells_push ⟨more, br.before, b.nextScope⟩ _
    rw [hcells]
    simp
  · exact Bracketing.marks_enclose h _ _

/-- What each step of reading links keeps holds in the end. -/
theorem read_keeps {D : Bracketing → List Cell → Prop} (push : ∀ {b c rest}, D b (c :: rest) → D (b.push c) rest)
    (openBracket : ∀ {b rest}, D b (.char '[' :: rest) → D (b.openBracket false) rest)
    (shut : ∀ {b rest}, D b (.char ']' :: rest) → D b.shut rest)
    (close : ∀ {b br more rest href after}, b.pending = br :: more → target? rest = some (href, after) →
      D b (.char ']' :: rest) → D (close b br more href) after)
    (bang escaped : Bool) {b : Bracketing} {cs : List Cell} (h : D b cs) : D (read bang escaped b cs) [] := by
  fun_induction read bang escaped b cs with
  | case1 => exact h
  | case2 bang escaped b c rest hc ih =>
    obtain rfl := Cell.eq_of_isChar (Bool.and_eq_true_iff.1 hc).1
    refine ih ?_
    split
    · exact push h
    · exact openBracket h
  | case3 bang escaped b c rest _ hc hp ih =>
    obtain rfl := Cell.eq_of_isChar (Bool.and_eq_true_iff.1 hc).1
    exact ih (shut h)
  | case4 bang escaped b c rest _ hc br more hp href after ht ih =>
    obtain rfl := Cell.eq_of_isChar (Bool.and_eq_true_iff.1 hc).1
    exact ih (close hp ht h)
  | case5 bang escaped b c rest _ hc br more hp ht ih =>
    obtain rfl := Cell.eq_of_isChar (Bool.and_eq_true_iff.1 hc).1
    exact ih (shut h)
  | case6 bang escaped b c rest _ _ ih => exact ih (push h)

/-- Reading cells as links keeps their marks. -/
theorem read_marks (bang escaped : Bool) (b : Bracketing) (cs : List Cell) :
    (Cell.marks b.cells ++ Cell.marks cs).Sublist (Cell.marks (read bang escaped b cs).cells) := by
  have pass {b b' : Bracketing} {c : Cell} (hcells : b'.cells = b.cells ++ [c]) (rest : List Cell) :
      Cell.marks b.cells ++ Cell.marks (c :: rest) = Cell.marks b'.cells ++ Cell.marks rest := by
    have hcons : Cell.marks (c :: rest) = Cell.marks [c] ++ Cell.marks rest := Cell.marks_append [c] rest
    rw [hcells, Cell.marks_append, List.append_assoc, hcons]
  have hread := read_keeps (D := fun b' rest =>
      (Cell.marks b.cells ++ Cell.marks cs).Sublist (Cell.marks b'.cells ++ Cell.marks rest))
    (fun {b' c rest} h => pass (Bracketing.cells_push b' c) rest ▸ h)
    (fun {b' rest} h => pass (Bracketing.cells_openBracket b' false) rest ▸ h)
    (fun {b' rest} h => pass (Bracketing.cells_shut b') rest ▸ h)
    (fun {b' br more rest href after} hp ht h => by
      rw [Cell.marks_char, target?_marks ht] at h
      exact h.trans ((close_marks hp href).append_right _))
    bang escaped (List.Sublist.refl _)
  rwa [Cell.marks_nil, List.append_nil] at hread

theorem resolve_marks (nextScope : Nat) (spans : List Span) :
    (Span.marks spans).Sublist (Span.marks (resolve nextScope spans).1) := by
  have h := read_marks false false (.start nextScope) (Span.toCells spans)
  rw [Bracketing.cells_start, Cell.marks_nil, List.nil_append, Span.marks_toCells,
    ← Span.marks_ofCells] at h
  exact h

end Link
end QuartoPretext
