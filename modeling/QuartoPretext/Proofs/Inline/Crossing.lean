/-
# Links across notes

Links are read in the cells that the rule for notes has left, with brackets of
their own. A bracket of a note is no bracket any more, so a link may begin in a
note and end after it, or the other way round. Nothing else keeps what has been
opened from being nested: two links never cross each other, and neither do notes.

Key definitions: `Cell.closings`, `Cell.Crosses`, `Bracketing.Walks`, `Link.Reads`.
Key theorems: `Cell.walk_count`, `Cell.exists_walk_only`, `Cell.not_crosses_of_walk`,
`Link.resolve_walk_iff`, `Inline.nested_links_iff`.
-/
import QuartoPretext.Proofs.Inline.NoteNesting

namespace QuartoPretext

namespace Cell

variable {cs ds : List Cell} {σ τ : List Opening}

/-- What some cells close. -/
def closings (cs : List Cell) : List Opening := (marks cs).filterMap Mark.closing?

/-- Among what is open are notes alone. -/
def OnlyNotes (σ : List Opening) : Prop := ∀ o ∈ σ, ∃ k, o = .note k

@[simp] theorem openings_append (cs ds : List Cell) : openings (cs ++ ds) = openings cs ++ openings ds := by
  rw [openings, marks_append, List.filterMap_append]
  rfl

@[simp] theorem closings_append (cs ds : List Cell) : closings (cs ++ ds) = closings cs ++ closings ds := by
  rw [closings, marks_append, List.filterMap_append]
  rfl

theorem openings_mark (m : Mark) (cs : List Cell) : openings (.mark m :: cs) = m.opening?.toList ++ openings cs := by
  rw [openings, marks_mark, List.filterMap_cons]
  cases m.opening? <;> rfl

theorem closings_mark (m : Mark) (cs : List Cell) : closings (.mark m :: cs) = m.closing?.toList ++ closings cs := by
  rw [closings, marks_mark, List.filterMap_cons]
  cases m.closing? <;> rfl

/-- What was open and what is opened is closed, or open in the end. -/
theorem walk_count : ∀ {cs : List Cell} {σ τ : List Opening}, walk σ cs = some τ → ∀ o,
    σ.count o + (openings cs).count o = (closings cs).count o + τ.count o
  | [], σ, τ, h, o => by
    cases h
    simp [openings, closings]
  | .char _ :: cs, σ, τ, h, o => by
    have h' : walk σ cs = some τ := h
    exact walk_count h' o
  | .mark m :: cs, σ, τ, h, o => by
    rw [openings_mark, closings_mark, List.count_append, List.count_append]
    obtain ⟨o', hopen, hclose, hrest⟩ | ⟨o', υ, hopen, hclose, rfl, hrest⟩ | ⟨hopen, hclose, hrest⟩ :=
      walk_mark_cases h
    all_goals
      have ih := walk_count hrest o
      rw [hopen, hclose]
      simp only [Option.toList_some, Option.toList_none, List.count_nil, List.count_cons] at ih ⊢
      omega

theorem walk_notes (h : walk σ cs = some τ) (hcs : ∀ m ∈ marks cs, m.OfNotes) (hσ : OnlyNotes σ) :
    OnlyNotes τ := by
  intro o ho
  have hcount := walk_count h o
  have hpos := List.count_pos_iff.2 ho
  rcases Nat.eq_zero_or_pos (σ.count o) with hzero | hopen
  · have hopens : 0 < (openings cs).count o := by omega
    obtain ⟨m, hm, hmo⟩ := List.mem_filterMap.1 (List.count_pos_iff.1 hopens)
    exact hcs m hm o (.inl hmo)
  · exact hσ o (List.count_pos_iff.1 hopen)

/-- A walk leaves alone what it need not close, and opens all that is new in the end. -/
theorem exists_walk_only : ∀ {cs : List Cell} {σ τ : List Opening}, walk σ cs = some τ →
    ∃ σ' τ' ρ, σ = σ' ++ ρ ∧ τ = τ' ++ ρ ∧ walk σ' cs = some τ' ∧
      (∀ o ∈ σ', o ∈ closings cs) ∧ ∀ o ∈ τ', o ∈ openings cs
  | [], σ, τ, h => by
    cases h
    exact ⟨[], [], σ, rfl, rfl, rfl, nofun, nofun⟩
  | .char _ :: cs, σ, τ, h => by
    have h' : walk σ cs = some τ := h
    have ih := exists_walk_only h'
    exact ih
  | .mark m :: cs, σ, τ, h => by
    rw [openings_mark, closings_mark]
    obtain ⟨o, hopen, hclose, hrest⟩ | ⟨o, υ, hopen, hclose, rfl, hrest⟩ | ⟨hopen, hclose, hrest⟩ :=
      walk_mark_cases h
    · obtain ⟨σ', τ', ρ, hσ, rfl, hwalk, hcloses, hopens⟩ := exists_walk_only hrest
      cases σ' with
      | nil =>
        -- what the mark opens is not closed
        subst hσ
        refine ⟨[], τ' ++ [o], σ, rfl, by simp, ?_, nofun, fun p hp => ?_⟩
        · rw [walk, Mark.after_opening hopen]
          exact walk_frame hwalk [o]
        · rw [hopen]
          rcases List.mem_append.1 hp with hp | hp
          · exact List.mem_append_right _ (hopens p hp)
          · exact List.mem_append_left _ hp
      | cons o' σ' =>
        obtain ⟨rfl, rfl⟩ := List.cons.inj hσ
        refine ⟨σ', τ', ρ, rfl, rfl, ?_, fun p hp => ?_, fun p hp => List.mem_append_right _ (hopens p hp)⟩
        · rw [walk, Mark.after_opening hopen]
          exact hwalk
        · exact List.mem_append_right _ (hcloses p (List.mem_cons_of_mem _ hp))
    · obtain ⟨σ', τ', ρ, rfl, rfl, hwalk, hcloses, hopens⟩ := exists_walk_only hrest
      refine ⟨o :: σ', τ', ρ, rfl, rfl, ?_, fun p hp => ?_, fun p hp => List.mem_append_right _ (hopens p hp)⟩
      · rw [walk, (Mark.after_closing hclose).2 rfl]
        exact hwalk
      · rw [hclose]
        rcases List.mem_cons.1 hp with rfl | hp
        · exact List.mem_append_left _ (List.mem_singleton_self p)
        · exact List.mem_append_right _ (hcloses p hp)
    · obtain ⟨σ', τ', ρ, rfl, rfl, hwalk, hcloses, hopens⟩ := exists_walk_only hrest
      refine ⟨σ', τ', ρ, rfl, rfl, ?_, fun p hp => List.mem_append_right _ (hcloses p hp),
        fun p hp => List.mem_append_right _ (hopens p hp)⟩
      rw [walk, Mark.IsInert.after ⟨hopen, hclose⟩]
      exact hwalk

/-! ### Links with one end of a note in them -/

/-- A link among some cells with one end of a note in it and the other outside. -/
def Crosses (cs : List Cell) : Prop :=
  ∃ href n inner k, .mark (.linkOpen href n) :: inner ++ [.mark (.linkClose n)] <:+: cs ∧
    ¬(.mark (.noteOpen k) ∈ inner ↔ .mark (.noteClose k) ∈ inner)

theorem Crosses.mono (h : Crosses cs) (hcs : cs <:+: ds) : Crosses ds := by
  obtain ⟨href, n, inner, k, hin, hends⟩ := h
  exact ⟨href, n, inner, k, hin.trans hcs, hends⟩

theorem mem_openings_note {k : Nat} : Opening.note k ∈ openings cs ↔ .mark (.noteOpen k) ∈ cs := by
  rw [openings, List.mem_filterMap]
  constructor
  · rintro ⟨m, hm, ho⟩
    cases m with
    | noteOpen n =>
      cases ho
      exact mem_marks.1 hm
    | _ => cases ho
  · exact fun h => ⟨.noteOpen k, mem_marks.2 h, rfl⟩

theorem mem_closings_note {k : Nat} : Opening.note k ∈ closings cs ↔ .mark (.noteClose k) ∈ cs := by
  rw [closings, List.mem_filterMap]
  constructor
  · rintro ⟨m, hm, ho⟩
    cases m with
    | noteClose n =>
      cases ho
      exact mem_marks.1 hm
    | _ => cases ho
  · exact fun h => ⟨.noteClose k, mem_marks.2 h, rfl⟩

/-- What bears a scope is opened no more often than the scope. -/
theorem count_openings_le {o : Opening} {n : Nat} (h : o.scope? = some n) (cs : List Cell) :
    (openings cs).count o ≤ (opens cs).count n := by
  rw [opens_eq]
  induction openings cs with
  | nil => exact Nat.le_refl 0
  | cons p os ih =>
    rw [List.count_cons]
    cases hp : p.scope? with
    | some m =>
      rw [List.filterMap_cons_some hp, List.count_cons]
      split
      · next hpo =>
        rw [beq_iff_eq.1 hpo, h] at hp
        cases hp
        rw [if_pos (beq_self_eq_true n)]
        exact Nat.succ_le_succ ih
      · exact Nat.le_add_right_of_le ih
    | none =>
      rw [List.filterMap_cons_none hp, if_neg]
      · exact ih
      · intro hpo
        rw [beq_iff_eq.1 hpo, h] at hp
        cases hp

theorem count_openings_le_one {o : Opening} {n : Nat} (h : o.scope? = some n) (hcs : (opens cs).Nodup) :
    (openings cs).count o ≤ 1 := (count_openings_le h cs).trans (List.nodup_iff_count_le_one.1 hcs n)

/-- Cells between where something is opened and where it is closed are nested. -/
theorem walk_inside {o : Opening} (h : walk (o :: σ) cs = some (o :: τ)) (hopens : o ∉ openings cs)
    (hcloses : o ∉ closings cs) : walk [] cs = some [] := by
  obtain ⟨σ', τ', ρ, hσ, hτ, hwalk, hcloses', hopens'⟩ := exists_walk_only h
  cases σ' with
  | cons p σ' =>
    obtain ⟨rfl, -⟩ := List.cons.inj hσ
    exact absurd (hcloses' o List.mem_cons_self) hcloses
  | nil =>
    cases τ' with
    | cons p τ' =>
      obtain ⟨rfl, -⟩ := List.cons.inj hτ
      exact absurd (hopens' o List.mem_cons_self) hopens
    | nil => exact hwalk

/-- In nested cells that open every scope once no link crosses a note. -/
theorem not_crosses_of_walk (h : walk [] cs = some []) (hcs : (opens cs).Nodup) : ¬Crosses cs := by
  rintro ⟨href, n, inner, k, ⟨before, after, rfl⟩, hends⟩
  -- the link is opened once, so it is closed once
  have hlink := walk_count h (.link n)
  have hone := count_openings_le_one (o := .link n) rfl hcs
  simp only [openings_append, closings_append, List.cons_append, openings_mark, closings_mark, List.count_append,
    Mark.opening?, Mark.closing?, Option.toList_some, Option.toList_none, List.count_cons_self,
    List.count_nil] at hlink hone
  rw [List.append_assoc] at h
  obtain ⟨σ, -, hlater⟩ := exists_of_walk_append h
  obtain ⟨τ, hlink', -⟩ := exists_of_walk_append hlater
  have hlink' : walk (.link n :: σ) (inner ++ [.mark (.linkClose n)]) = some τ := hlink'
  obtain ⟨υ, hinner, hclose⟩ := exists_of_walk_append hlink'
  obtain ⟨τ', hτ, hnil⟩ := Option.bind_eq_some_iff.1 hclose
  cases hnil
  rw [(Mark.after_closing (o := .link n) rfl).1 hτ] at hinner
  have hnested : walk [] inner = some [] := by
    refine walk_inside hinner (fun hm => ?_) fun hm => ?_
    · have := List.count_pos_iff.2 hm
      omega
    · have := List.count_pos_iff.2 hm
      omega
  have hnote := walk_count hnested (.note k)
  rw [List.count_nil, Nat.zero_add, Nat.add_zero] at hnote
  refine hends ?_
  rw [← mem_openings_note, ← mem_closings_note, ← List.count_pos_iff, ← List.count_pos_iff, hnote]

/-- Cells in which the notes that are opened are the notes that are closed are nested
on their own, if notes alone are open before and after them and each scope is opened
once. -/
theorem walk_uncrossed {before : List Cell} (hbefore : walk [] before = some σ) (h : walk σ cs = some τ)
    (hσ : OnlyNotes σ) (hτ : OnlyNotes τ) (hopens : (opens (before ++ cs)).Nodup)
    (hends : ∀ k, .mark (.noteOpen k) ∈ cs ↔ .mark (.noteClose k) ∈ cs) : walk [] cs = some [] ∧ τ = σ := by
  obtain ⟨σ', τ', ρ, rfl, rfl, hwalk, hcloses, hopens'⟩ := exists_walk_only h
  have hone (k : Nat) := count_openings_le_one (o := .note k) rfl hopens
  simp only [openings_append, List.count_append] at hone
  have hσ' : σ' = [] := by
    refine List.eq_nil_iff_forall_not_mem.2 fun o ho => ?_
    -- it has been opened before, and is opened again
    obtain ⟨k, rfl⟩ := hσ o (List.mem_append_left ρ ho)
    have hagain := List.count_pos_iff.2 (mem_openings_note.2 ((hends k).2 (mem_closings_note.1 (hcloses _ ho))))
    have hopen := List.count_pos_iff.2 (List.mem_append_left ρ ho)
    have hcount := walk_count hbefore (.note k)
    have := hone k
    rw [List.count_nil] at hcount
    omega
  subst hσ'
  have hτ' : τ' = [] := by
    refine List.eq_nil_iff_forall_not_mem.2 fun o ho => ?_
    -- it is closed, and has been opened again after that
    obtain ⟨k, rfl⟩ := hτ o (List.mem_append_left ρ ho)
    have hclosed := List.count_pos_iff.2 (mem_closings_note.2 ((hends k).1 (mem_openings_note.1 (hopens' _ ho))))
    have hopen := List.count_pos_iff.2 ho
    have hcount := walk_count hwalk (.note k)
    have := hone k
    rw [List.count_nil] at hcount
    omega
  subst hτ'
  exact ⟨hwalk, rfl⟩

end Cell

/-! ### Reading links -/

namespace Bracketing

variable {b : Bracketing} {br : Bracket} {more : List Bracket} {current : List Cell} {σ τ : List Opening}

/-- What has been read, cut at the brackets that are open. -/
def parts (b : Bracketing) : List (List Cell) := b.current.reverse :: b.pending.map (·.before.reverse)

theorem infix_of_mem_parts : ∀ {pending : List Bracket} {current : List Cell} {n : Nat} {part : List Cell},
    part ∈ (Bracketing.mk pending current n).parts → part <:+: (Bracketing.mk pending current n).cells
  | [], current, n, part, h => by
    rw [List.mem_singleton.1 h, cells_eq]
    simp
  | br :: more, current, n, part, h => by
    rw [cells_pending rfl n]
    rcases List.mem_cons.1 h with rfl | h
    · exact ((List.suffix_cons _ _).trans (List.suffix_append _ _)).isInfix
    · have hmore : part ∈ (Bracketing.mk more br.before n).parts := h
      exact (infix_of_mem_parts hmore).trans (List.prefix_append _ _).isInfix

/-- Every part of one is in a part of the other. -/
def Extends (b b' : Bracketing) : Prop := ∀ part ∈ b.parts, ∃ part' ∈ b'.parts, part <:+: part'

theorem extends_push (b : Bracketing) (c : Cell) : b.Extends (b.push c) := by
  intro part hpart
  rcases List.mem_cons.1 hpart with rfl | hpart
  · refine ⟨_, List.mem_cons_self, ?_⟩
    show b.current.reverse <:+: (c :: b.current).reverse
    rw [List.reverse_cons]
    exact (List.prefix_append _ _).isInfix
  · exact ⟨part, List.mem_cons_of_mem _ hpart, List.infix_rfl⟩

theorem extends_openBracket (b : Bracketing) (isNote : Bool) : b.Extends (b.openBracket isNote) :=
  fun part hpart => ⟨part, List.mem_cons_of_mem _ hpart, List.infix_rfl⟩

/-- The innermost part goes into the one before it. -/
theorem extends_close (hp : b.pending = br :: more) (first last : Cell) (n : Nat) :
    b.Extends ⟨more, last :: b.current ++ first :: br.before, n⟩ := by
  have hpart : (last :: b.current ++ first :: br.before).reverse =
      br.before.reverse ++ (first :: b.current.reverse ++ [last]) := by simp
  intro part hmem
  rw [parts, hp] at hmem
  rw [parts, hpart]
  rcases List.mem_cons.1 hmem with rfl | hmem
  · exact ⟨_, List.mem_cons_self, ⟨br.before.reverse ++ [first], [last], by simp⟩⟩
  · rcases List.mem_cons.1 hmem with rfl | hmem
    · exact ⟨_, List.mem_cons_self, (List.prefix_append _ _).isInfix⟩
    · exact ⟨part, List.mem_cons_of_mem _ hmem, List.infix_rfl⟩

/-- A link that has been read crosses a note. -/
def Crosses (b : Bracketing) : Prop := ∃ part ∈ b.parts, Cell.Crosses part

theorem Crosses.mono {b' : Bracketing} (h : b.Crosses) (hb : b.Extends b') : b'.Crosses := by
  obtain ⟨part, hpart, hcrosses⟩ := h
  obtain ⟨part', hpart', hin⟩ := hb part hpart
  exact ⟨part', hpart', hcrosses.mono hin⟩

theorem Crosses.cells (h : b.Crosses) : Cell.Crosses b.cells := by
  obtain ⟨part, hpart, hcrosses⟩ := h
  exact hcrosses.mono (infix_of_mem_parts hpart)

/-- What is open after all that has been read, where notes alone are open at each
bracket. -/
inductive Walks : List Bracket → List Cell → List Opening → Prop
  | outermost {current : List Cell} {σ : List Opening} : Cell.walk [] current.reverse = some σ →
      Cell.OnlyNotes σ → Walks [] current σ
  | within {br : Bracket} {more : List Bracket} {current : List Cell} {σ τ : List Opening} : Walks more br.before σ →
      Cell.walk σ current.reverse = some τ → Cell.OnlyNotes τ → Walks (br :: more) current τ

theorem Walks.notes {pending : List Bracket} (h : Walks pending current σ) : Cell.OnlyNotes σ := by
  cases h with
  | outermost _ h => exact h
  | within _ _ h => exact h

theorem Walks.append {pending : List Bracket} (h : Walks pending current σ) {cs : List Cell}
    (hcs : Cell.walk σ cs = some τ) (hτ : Cell.OnlyNotes τ) : Walks pending (cs.reverse ++ current) τ := by
  have hreverse : (cs.reverse ++ current).reverse = current.reverse ++ cs := by simp
  cases h with
  | outermost hwalk _ => exact .outermost (hreverse ▸ Cell.walk_append_some hwalk hcs) hτ
  | within hbefore hwalk _ => exact .within hbefore (hreverse ▸ Cell.walk_append_some hwalk hcs) hτ

theorem Walks.cells {pending : List Bracket} (h : Walks pending current σ) (n : Nat) :
    Cell.walk [] (Bracketing.mk pending current n).cells = some σ := by
  induction h with
  | @outermost current σ hwalk _ =>
    rw [cells_eq]
    simpa using hwalk
  | @within br more current σ τ _ hwalk _ ih =>
    rw [cells_pending rfl n]
    exact Cell.walk_append_some ih hwalk

end Bracketing

namespace Link

open Bracketing

variable {b b' : Bracketing} {c : Cell} {br : Bracket} {more : List Bracket} {rest after : List Cell} {href : Text}

/-- Cells that are read for links, with those that are still to be read: every scope
is opened once. A link crosses a note, or notes alone are open, at each bracket too. -/
structure Reads (b : Bracketing) (cs : List Cell) : Prop where
  nodup : (Cell.opens b.cells ++ Cell.opens cs).Nodup
  fresh : ∀ n ∈ Cell.opens b.cells ++ Cell.opens cs, n < b.nextScope
  marks : ∀ m ∈ Cell.marks cs, m.OfNotes
  walks : b.Crosses ∨ ∃ σ, Walks b.pending b.current σ ∧ Cell.walk σ cs = some []

/-- A cell that is passed as it is. -/
theorem Reads.pass (h : Reads b (c :: rest)) (hcells : b'.cells = b.cells ++ [c]) (hscope : b'.nextScope = b.nextScope)
    (hwalks : b'.Crosses ∨ ∃ σ, Walks b'.pending b'.current σ ∧ Cell.walk σ rest = some []) : Reads b' rest := by
  have hopens : Cell.opens b'.cells ++ Cell.opens rest = Cell.opens b.cells ++ Cell.opens (c :: rest) := by
    rw [hcells, Cell.opens_append, List.append_assoc, ← Cell.opens_append, List.singleton_append]
  refine ⟨hopens ▸ h.nodup, ?_, fun m hm => ?_, hwalks⟩
  · rw [hopens, hscope]
    exact h.fresh
  · exact h.marks m (((List.sublist_cons_self c rest).filterMap _).subset hm)

theorem Reads.push (h : Reads b (c :: rest)) : Reads (b.push c) rest := by
  refine h.pass (cells_push b c) rfl ?_
  rcases h.walks with hcrosses | ⟨σ, hwalks, hrest⟩
  · exact .inl (hcrosses.mono (extends_push b c))
  · have hrest : Cell.walk σ ([c] ++ rest) = some [] := hrest
    obtain ⟨τ, hc, hrest⟩ := Cell.exists_of_walk_append hrest
    have hmarks : ∀ m ∈ Cell.marks [c], m.OfNotes := fun m hm =>
      h.marks m (((List.sublist_append_left [c] rest).filterMap _).subset hm)
    exact .inr ⟨τ, hwalks.append hc (Cell.walk_notes hc hmarks hwalks.notes), hrest⟩

theorem Reads.openBracket (h : Reads b (.char '[' :: rest)) : Reads (b.openBracket false) rest := by
  refine h.pass (cells_openBracket b false) rfl ?_
  rcases h.walks with hcrosses | ⟨σ, hwalks, hrest⟩
  · exact .inl (hcrosses.mono (extends_openBracket b false))
  · exact .inr ⟨σ, .within hwalks rfl hwalks.notes, hrest⟩

theorem Reads.shut (h : Reads b (.char ']' :: rest)) : Reads b.shut rest := by
  cases hp : b.pending with
  | nil =>
    rw [Bracketing.shut, hp]
    exact h.push
  | cons br more =>
    have hshut : b.shut = ⟨more, .char ']' :: b.current ++ .char '[' :: br.before, b.nextScope⟩ := by
      rw [Bracketing.shut, hp]
    have hcells := cells_shut b
    rw [hshut] at hcells ⊢
    refine h.pass hcells rfl ?_
    rcases h.walks with hcrosses | ⟨σ, hwalks, hrest⟩
    · exact .inl (hcrosses.mono (extends_close hp _ _ _))
    · rw [hp] at hwalks
      cases hwalks with
      | @within _ _ _ τ _ hbefore hwalk hnotes =>
        have htext : Cell.walk τ (.char '[' :: (b.current.reverse ++ [.char ']'])) = some σ :=
          Cell.walk_append_some hwalk rfl
        have happend := hbefore.append htext hnotes
        exact .inr ⟨σ, by simpa using happend, hrest⟩

/-- What is still to be read counts by its marks. -/
theorem Reads.congr {cs ds : List Cell} (h : Reads b cs) (hmarks : Cell.marks cs = Cell.marks ds) : Reads b ds := by
  have hopens : Cell.opens cs = Cell.opens ds := congrArg (List.filterMap _) hmarks
  refine ⟨hopens ▸ h.nodup, hopens ▸ h.fresh, hmarks ▸ h.marks, ?_⟩
  have hwalks := h.walks
  simp only [Cell.walk_marks cs, hmarks, ← Cell.walk_marks ds] at hwalks
  exact hwalks

theorem Reads.bare {cs : List Cell} (hp : b.pending = br :: more) (hcurrent : b.current = []) (h : Reads b cs) :
    Reads { b with pending := more, current := .mark (.bareLink href) :: br.before } cs := by
  have hnodup := h.nodup
  have hfresh := h.fresh
  rw [cells_pending hp b.nextScope, hcurrent, Cell.opens_append] at hnodup hfresh
  have hcells : (Bracketing.mk more (.mark (.bareLink href) :: br.before) b.nextScope).cells =
      (Bracketing.mk more br.before b.nextScope).cells ++ [.mark (.bareLink href)] :=
    cells_push ⟨more, br.before, b.nextScope⟩ _
  refine ⟨?_, ?_, h.marks, ?_⟩
  · rw [hcells, Cell.opens_append]
    exact hnodup
  · rw [hcells, Cell.opens_append]
    exact hfresh
  · rcases h.walks with ⟨part, hpart, hcrosses⟩ | ⟨σ, hwalks, hrest⟩
    · have hparts : b.parts = [] :: (Bracketing.mk more br.before b.nextScope).parts := by
        rw [parts, hp, hcurrent]
        rfl
      rw [hparts] at hpart
      rcases List.mem_cons.1 hpart with rfl | hpart
      · obtain ⟨_, _, inner, _, hin, _⟩ := hcrosses
        cases List.infix_nil.1 hin
      · have hmore : (Bracketing.mk more br.before b.nextScope).Crosses := ⟨part, hpart, hcrosses⟩
        exact .inl (hmore.mono (extends_push _ _))
    · rw [hp, hcurrent] at hwalks
      cases hwalks with
      | within hbefore hwalk hnotes =>
        cases hwalk
        have hbare : Cell.walk σ [.mark (.bareLink href)] = some σ := rfl
        exact .inr ⟨σ, hbefore.append hbare hnotes, hrest⟩

theorem Reads.enclose {cs : List Cell} (hp : b.pending = br :: more) (h : Reads b cs) :
    Reads (b.enclose br.before more (.linkOpen href) .linkClose) cs := by
  have hopens : Cell.opens (b.enclose br.before more (.linkOpen href) .linkClose).cells = _ :=
    opens_enclose (o := .link) b br.before more (fun _ => rfl) (fun _ => rfl) fun _ => rfl
  have hnodup := h.nodup
  have hfresh := h.fresh
  rw [cells_pending hp b.nextScope, Cell.opens_append, Cell.opens_char] at hnodup hfresh
  refine ⟨?_, fun n hn => ?_, h.marks, ?_⟩
  · rw [hopens, (List.perm_middle.append_right _).nodup_iff, List.cons_append, List.nodup_cons]
    exact ⟨fun hn => Nat.lt_irrefl _ (hfresh _ hn), hnodup⟩
  · rw [hopens, (List.perm_middle.append_right _).mem_iff] at hn
    rcases List.mem_cons.1 hn with rfl | hn
    · exact Nat.lt_succ_self _
    · exact Nat.lt_succ_of_lt (hfresh n hn)
  · rcases h.walks with hcrosses | ⟨τ, hwalks, hrest⟩
    · exact .inl (hcrosses.mono (extends_close hp _ _ _))
    · have hcurrent : (Cell.mark (.linkClose b.nextScope) :: b.current ++
          .mark (.linkOpen href b.nextScope) :: br.before) =
          (.mark (.linkOpen href b.nextScope) :: (b.current.reverse ++ [.mark (.linkClose b.nextScope)])).reverse ++
            br.before := by simp
      by_cases hends : ∀ k, .mark (.noteOpen k) ∈ b.current.reverse ↔ .mark (.noteClose k) ∈ b.current.reverse
      · rw [hp] at hwalks
        cases hwalks with
        | within hbefore hwalk hnotes =>
          obtain ⟨hnested, rfl⟩ := Cell.walk_uncrossed (hbefore.cells b.nextScope) hwalk hbefore.notes hnotes
            (by rw [Cell.opens_append]; exact hnodup.sublist (List.sublist_append_left _ _)) hends
          have henclosed : Cell.walk [] (.mark (.linkOpen href b.nextScope) ::
              (b.current.reverse ++ [.mark (.linkClose b.nextScope)])) = some [] :=
            Cell.walk_enclosed (o := .link b.nextScope) rfl rfl hnested
          refine .inr ⟨τ, ?_, hrest⟩
          show Walks more (Cell.mark (.linkClose b.nextScope) :: b.current ++
            .mark (.linkOpen href b.nextScope) :: br.before) τ
          rw [hcurrent]
          exact hbefore.append (Cell.walk_frame henclosed τ) hnotes
      · obtain ⟨k, hk⟩ := not_forall.1 hends
        refine .inl ⟨_, List.mem_cons_self, href, b.nextScope, b.current.reverse, k, ?_, hk⟩
        show _ <:+: (Cell.mark (.linkClose b.nextScope) :: b.current ++
          .mark (.linkOpen href b.nextScope) :: br.before).reverse
        rw [hcurrent, List.reverse_append, List.reverse_reverse]
        exact (List.suffix_append _ _).isInfix

theorem Reads.close (hp : b.pending = br :: more) (ht : target? rest = some (href, after))
    (h : Reads b (.char ']' :: rest)) : Reads (close b br more href) after := by
  have hreads := h.congr ((Cell.marks_char ']' rest).trans (target?_marks ht))
  unfold Link.close
  split
  · next hempty => exact hreads.bare hp (List.isEmpty_iff.1 hempty)
  · exact hreads.enclose hp

/-- Links among nested notes are nested with them just if no link crosses a note. -/
theorem resolve_walk_iff {spans : List Span} {nextScope : Nat} (h : Cell.NestedNotes (Span.toCells spans) nextScope) :
    (Cell.opens (Span.toCells (resolve nextScope spans).1)).Nodup ∧
      (Cell.walk [] (Span.toCells (resolve nextScope spans).1) = some [] ↔
        ¬Cell.Crosses (Span.toCells (resolve nextScope spans).1)) := by
  have hstart : Reads (.start nextScope) (Span.toCells spans) :=
    ⟨h.nodup, h.fresh, h.marks, .inr ⟨[], .outermost rfl nofun, h.walk⟩⟩
  have hread := read_keeps (D := Reads) Reads.push Reads.openBracket Reads.shut Reads.close false false hstart
  have hcells : Span.toCells (resolve nextScope spans).1 =
      (read false false (start nextScope) (Span.toCells spans)).cells := Span.toCells_ofCells _
  have hnodup := hread.nodup
  rw [← hcells] at hnodup
  have hopens : (Cell.opens (Span.toCells (resolve nextScope spans).1)).Nodup :=
    hnodup.sublist (List.sublist_append_left _ _)
  refine ⟨hopens, fun hwalk => Cell.not_crosses_of_walk hwalk hopens, fun hcrosses => ?_⟩
  rcases hread.walks with hread | ⟨σ, hwalks, hrest⟩
  · exact absurd (hcells ▸ hread.cells) hcrosses
  · cases hrest
    rw [hcells]
    exact hwalks.cells _

end Link

/-! ### A text after the rule for links -/

namespace Inline

/-- After the rule for notes all that is open is nested. After the rule for links
every scope is opened once, and all is nested just if no link crosses a note. -/
theorem nested_links_iff (ctx : Context) (body : NoteBody) (s : Text) :
    let notes := [InlineRule.passthrough, .math, .code, .notes].foldl (apply ctx body) (.start s)
    let links := apply ctx body notes .links
    Cell.walk [] (Span.toCells notes.spans) = some [] ∧ (Cell.opens (Span.toCells links.spans)).Nodup ∧
      (Cell.walk [] (Span.toCells links.spans) = some [] ↔ ¬Cell.Crosses (Span.toCells links.spans)) := by
  have hnotes := nested_notes ctx body s
  exact ⟨hnotes.walk, Link.resolve_walk_iff hnotes⟩

/-- A bracket before a note is closed by that of an image in it, and the link ends
within the note. -/
theorem link_across_note :
    let s : Text := "[a ^[b ![c](u) d] e".toList
    let ctx : Context := ⟨.xref, [], .empty⟩
    let links := [InlineRule.passthrough, .math, .code, .notes, .links].foldl (apply ctx fun _ => (none, [])) (.start s)
    '<' ∉ s ∧ Span.marks links.spans = [.linkOpen ['u'] 1, .noteOpen 0, .linkClose 1, .noteClose 0] ∧
    Cell.walk [] (Span.toCells links.spans) = none ∧
    (transform ctx s).1 = "<url href=\"u\">a <fn>b ![c</url> d</fn> e".toList :=
  ⟨by decide, by decide +kernel, by decide +kernel, by decide +kernel⟩

end Inline
end QuartoPretext
