/-
# Links are nested

While cells are read for links, the cells since each open bracket are nested on
their own, and every scope that has been opened bears a number of its own. So
enclosing the innermost bracket keeps the whole nested.

Key definitions: `Bracketing.Nests`.
Key theorems: `Bracketing.Nests.enclose`, `Bracketing.Nests.walk`, `Link.resolve_nests`.
-/
import QuartoPretext.Proofs.Inline.Bracket
import QuartoPretext.Proofs.Inline.Nesting

namespace QuartoPretext

/-- Nested cells between a mark that opens something and one that closes it. -/
theorem Cell.walk_enclosed {cs : List Cell} {m m' : Mark} {o : Opening} (hopen : m.opening? = some o)
    (hclose : m'.closing? = some o) (h : walk [] cs = some []) :
    walk [] (.mark m :: (cs ++ [.mark m'])) = some [] := by
  rw [walk, Mark.after_opening hopen]
  refine walk_append_some (walk_frame h [o]) ?_
  have hlast : m'.after ([] ++ [o]) = some [] := (Mark.after_closing hclose).2 rfl
  rw [walk, hlast]
  rfl

namespace Bracketing

/-- The cells since each open bracket are nested, and every scope is opened
once, with a number below the next free one. `P` holds for all marks. -/
structure Nests (P : Mark → Prop) (b : Bracketing) : Prop where
  current : Cell.walk [] b.current.reverse = some []
  pending : ∀ br ∈ b.pending, Cell.walk [] br.before.reverse = some []
  fresh : ∀ n ∈ Cell.opens b.cells, n < b.nextScope
  nodup : (Cell.opens b.cells).Nodup
  marks : ∀ m ∈ Cell.marks b.cells, P m

variable {P : Mark → Prop} {b : Bracketing}

theorem nests_start (P : Mark → Prop) (n : Nat) : (start n).Nests P := by
  refine ⟨rfl, nofun, ?_, ?_, ?_⟩ <;> simp [cells_start, Cell.opens]

theorem Nests.walk (h : b.Nests P) : Cell.walk [] b.cells = some [] := by
  have hall : ∀ (pending : List Bracket) (current : List Cell),
      (∀ br ∈ pending, Cell.walk [] br.before.reverse = some []) →
        Cell.walk [] current.reverse = some [] →
          Cell.walk [] (Bracketing.mk pending current 0).cells = some [] := by
    intro pending
    induction pending with
    | nil =>
      intro current _ hc
      simpa [cells_eq] using hc
    | cons br more ih =>
      intro current hp hc
      have hbefore := ih br.before (fun br' hbr => hp br' (List.mem_cons_of_mem br hbr))
        (hp br List.mem_cons_self)
      have hcells : (Bracketing.mk (br :: more) current 0).cells =
          (Bracketing.mk more br.before 0).cells ++ .char '[' :: current.reverse := cells_pending rfl 0
      rw [hcells]
      exact Cell.walk_append_some hbefore hc
  have hcells : b.cells = (Bracketing.mk b.pending b.current 0).cells := rfl
  rw [hcells]
  exact hall b.pending b.current h.pending h.current

theorem Nests.push (h : b.Nests P) {c : Cell} (hc : ∀ m, c = .mark m → m.IsInert ∧ P m) :
    (b.push c).Nests P := by
  have hopens : Cell.opens [c] = [] := by
    cases c with
    | char c => rfl
    | mark m =>
      rw [Cell.opens_mark, (hc m rfl).1.1]
      rfl
  have hcells : Cell.opens (b.push c).cells = Cell.opens b.cells := by
    rw [cells_push, Cell.opens_append, hopens, List.append_nil]
  refine ⟨?_, h.pending, ?_, ?_, ?_⟩
  · have hlast : Cell.walk [] [c] = some [] := by
      refine Cell.walk_inert (fun m hm => ?_) []
      cases c with
      | char c => cases hm
      | mark m' => exact (List.mem_singleton.1 hm) ▸ (hc m' rfl).1
    show Cell.walk [] (c :: b.current).reverse = some []
    rw [List.reverse_cons]
    exact Cell.walk_append_some h.current hlast
  · rw [hcells]
    exact h.fresh
  · rw [hcells]
    exact h.nodup
  · intro m hm
    rw [cells_push, Cell.marks_append, List.mem_append] at hm
    rcases hm with hm | hm
    · exact h.marks m hm
    · cases c with
      | char c => cases hm
      | mark m' => exact (List.mem_singleton.1 hm) ▸ (hc m' rfl).2

/-- Characters and brackets that stay text change nothing that counts. -/
theorem Nests.of_char {b' : Bracketing} {c : Char} (h : b.Nests P) (hcells : b'.cells = b.cells ++ [.char c])
    (hscope : b'.nextScope = b.nextScope) (hcurrent : Cell.walk [] b'.current.reverse = some [])
    (hpending : ∀ br ∈ b'.pending, Cell.walk [] br.before.reverse = some []) : b'.Nests P := by
  have hopens : Cell.opens b'.cells = Cell.opens b.cells := by
    rw [hcells, Cell.opens_append, Cell.opens_char]
    exact List.append_nil _
  refine ⟨hcurrent, hpending, ?_, ?_, ?_⟩
  · rw [hopens, hscope]
    exact h.fresh
  · rw [hopens]
    exact h.nodup
  · rw [hcells, Cell.marks_append, Cell.marks_char, Cell.marks_nil, List.append_nil]
    exact h.marks

theorem Nests.openBracket (h : b.Nests P) (isNote : Bool) : (b.openBracket isNote).Nests P := by
  refine h.of_char (cells_openBracket b isNote) rfl rfl ?_
  intro br hbr
  rcases List.mem_cons.1 hbr with rfl | hbr
  · exact h.current
  · exact h.pending br hbr

theorem Nests.shut (h : b.Nests P) : b.shut.Nests P := by
  have hcells := cells_shut b
  unfold Bracketing.shut at hcells ⊢
  split at hcells
  · exact h.push fun _ hm => by cases hm
  · next br more hp =>
    have hbr := h.pending br (hp ▸ List.mem_cons_self)
    refine h.of_char hcells rfl ?_ fun br' hbr' => h.pending br' (hp ▸ List.mem_cons_of_mem br hbr')
    have hrev : (Cell.char ']' :: b.current ++ .char '[' :: br.before).reverse =
        br.before.reverse ++ (.char '[' :: b.current.reverse ++ [.char ']']) := by simp
    show Cell.walk [] (Cell.char ']' :: b.current ++ .char '[' :: br.before).reverse = some []
    rw [hrev]
    have hinner : Cell.walk [] (.char '[' :: b.current.reverse) = some [] := h.current
    exact Cell.walk_append_some hbr (Cell.walk_append_some hinner rfl)

variable {openMark closeMark : Nat → Mark} {o : Nat → Opening}

/-- Enclosing opens the next scope, and nothing else that was not open before. -/
theorem opens_enclose (b : Bracketing) (before : List Cell) (more : List Bracket)
    (hscope : ∀ n, (o n).scope? = some n) (hopen : ∀ n, (openMark n).opening? = some (o n))
    (hclose' : ∀ n, (closeMark n).opening? = none) :
    Cell.opens (b.enclose before more openMark closeMark).cells =
      Cell.opens (Bracketing.mk more before b.nextScope).cells ++ b.nextScope :: Cell.opens b.current.reverse := by
  have hnil : Cell.opens [] = [] := rfl
  rw [cells_enclose]
  simp only [Cell.opens_append, Cell.opens_mark, hopen, hclose', Option.bind_some, hscope, Option.toList_some,
    Option.bind_none, Option.toList_none, hnil, List.append_nil, List.singleton_append]

/-- Two marks of a new scope around the cells since the innermost bracket. -/
theorem Nests.enclose {br : Bracket} {more : List Bracket} (h : b.Nests P) (hp : b.pending = br :: more)
    (hscope : ∀ n, (o n).scope? = some n) (hopen : ∀ n, (openMark n).opening? = some (o n))
    (hclose : ∀ n, (closeMark n).closing? = some (o n))
    (hP : ∀ n, P (openMark n) ∧ P (closeMark n)) : (b.enclose br.before more openMark closeMark).Nests P := by
  have hbr := h.pending br (hp ▸ List.mem_cons_self)
  have hbefore := cells_pending hp b.nextScope
  have hopens := opens_enclose b br.before more hscope hopen fun n => Mark.opening?_of_closing (hclose n)
  have hfresh := h.fresh
  have hnodup := h.nodup
  have hmarks := h.marks
  rw [hbefore, Cell.opens_append, Cell.opens_char] at hfresh hnodup
  refine ⟨?_, fun br' hbr' => h.pending br' (hp ▸ List.mem_cons_of_mem br hbr'), ?_, ?_, ?_⟩
  · have hrev : (Cell.mark (closeMark b.nextScope) :: b.current ++
        .mark (openMark b.nextScope) :: br.before).reverse =
        br.before.reverse ++ .mark (openMark b.nextScope) ::
          (b.current.reverse ++ [.mark (closeMark b.nextScope)]) := by simp
    show Cell.walk [] (Cell.mark (closeMark b.nextScope) :: b.current ++
      .mark (openMark b.nextScope) :: br.before).reverse = some []
    rw [hrev]
    exact Cell.walk_append_some hbr (Cell.walk_enclosed (hopen _) (hclose _) h.current)
  · intro n hn
    rw [hopens] at hn
    show n < b.nextScope + 1
    simp only [List.mem_append, List.mem_cons] at hn hfresh
    rcases hn with hn | rfl | hn
    · exact Nat.lt_succ_of_lt (hfresh n (.inl hn))
    · exact Nat.lt_succ_self _
    · exact Nat.lt_succ_of_lt (hfresh n (.inr hn))
  · rw [hopens, (List.perm_middle).nodup_iff, List.nodup_cons]
    exact ⟨fun hn => Nat.lt_irrefl _ (hfresh _ hn), hnodup⟩
  · intro m hm
    rw [hbefore, Cell.marks_append, Cell.marks_char] at hmarks
    rw [cells_enclose] at hm
    simp only [Cell.marks_append, Cell.marks_mark, Cell.marks_nil, List.mem_append, List.mem_cons,
      List.not_mem_nil, or_false] at hm hmarks
    rcases hm with (hm | rfl | hm) | rfl
    · exact hmarks m (.inl hm)
    · exact (hP b.nextScope).1
    · exact hmarks m (.inr hm)
    · exact (hP b.nextScope).2

end Bracketing

namespace Link

open Bracketing

variable {P : Mark → Prop}

theorem close_nests (hbare : ∀ href, P (.bareLink href)) (hopen : ∀ href n, P (.linkOpen href n))
    (hclose : ∀ n, P (.linkClose n)) {b : Bracketing} {br : Bracket} {more : List Bracket}
    (h : b.Nests P) (hp : b.pending = br :: more) (href : Text) : (close b br more href).Nests P := by
  unfold close
  split
  · next hempty =>
    have hcells : b.cells = (Bracketing.mk more br.before b.nextScope).cells ++ [.char '['] := by
      rw [cells_pending hp b.nextScope, List.isEmpty_iff.1 hempty]
      rfl
    have hbefore : (Bracketing.mk more br.before b.nextScope).Nests P := by
      have hfresh := h.fresh
      have hnodup := h.nodup
      have hmarks := h.marks
      rw [hcells, Cell.opens_append, Cell.opens_char] at hfresh hnodup
      rw [hcells, Cell.marks_append, Cell.marks_char, Cell.marks_nil, List.append_nil] at hmarks
      have hnil : Cell.opens [] = [] := rfl
      rw [hnil, List.append_nil] at hfresh hnodup
      exact ⟨h.pending br (hp ▸ List.mem_cons_self),
        fun br' hbr' => h.pending br' (hp ▸ List.mem_cons_of_mem br hbr'), hfresh, hnodup, hmarks⟩
    refine hbefore.push fun m hm => ?_
    cases hm
    exact ⟨⟨rfl, rfl⟩, hbare href⟩
  · exact h.enclose hp (o := .link) (fun _ => rfl) (fun _ => rfl) (fun _ => rfl)
      fun n => ⟨hopen href n, hclose n⟩

theorem read_nests (hbare : ∀ href, P (.bareLink href)) (hopen : ∀ href n, P (.linkOpen href n))
    (hclose : ∀ n, P (.linkClose n)) (bang escaped : Bool) {b : Bracketing} {cs : List Cell} (h : b.Nests P)
    (hcs : ∀ m ∈ Cell.marks cs, m.IsInert ∧ P m) : (read bang escaped b cs).Nests P := by
  refine (read_keeps (D := fun b cs => b.Nests P ∧ ∀ m ∈ Cell.marks cs, m.IsInert ∧ P m) ?_ ?_ ?_ ?_ bang escaped
    ⟨h, hcs⟩).1
  · rintro b c rest ⟨h, hcs⟩
    refine ⟨h.push fun m hm => ?_, fun m hm => hcs m (((List.sublist_cons_self c rest).filterMap _).subset hm)⟩
    subst hm
    exact hcs m List.mem_cons_self
  · exact fun ⟨h, hcs⟩ => ⟨h.openBracket false, hcs⟩
  · exact fun ⟨h, hcs⟩ => ⟨h.shut, hcs⟩
  · rintro b br more rest href after hp ht ⟨h, hcs⟩
    rw [Cell.marks_char, target?_marks ht] at hcs
    exact ⟨close_nests hbare hopen hclose h hp href, hcs⟩

/-- Links among marks that open and close nothing are nested. -/
theorem resolve_nests (hbare : ∀ href, P (.bareLink href)) (hopen : ∀ href n, P (.linkOpen href n))
    (hclose : ∀ n, P (.linkClose n)) (nextScope : Nat) {spans : List Span}
    (h : ∀ m ∈ Span.marks spans, m.IsInert ∧ P m) :
    Cell.walk [] (Span.toCells (resolve nextScope spans).1) = some [] ∧
      (Cell.opens (Span.toCells (resolve nextScope spans).1)).Nodup ∧
        ∀ m ∈ Span.marks (resolve nextScope spans).1, P m := by
  rw [← Span.marks_toCells] at h
  have hn := read_nests hbare hopen hclose false false (nests_start P nextScope) h
  rw [← Span.marks_toCells]
  have hcells : Span.toCells (resolve nextScope spans).1 =
      (read false false (start nextScope) (Span.toCells spans)).cells := Span.toCells_ofCells _
  rw [hcells]
  exact ⟨hn.walk, hn.nodup, hn.marks⟩

end Link
end QuartoPretext
