/-
# A text in a div of its own

Around the lines of a text stand an empty line and the fence of a div before
them, and the closing fence after them. So the lines move by one, and an empty
one may come after the last. If the lines are balanced they are the body of
the div. The fences define no footnotes and continue none, so that the table of
footnotes is the same as without the div.

Key definitions: `Text.wrapped`.
Key theorems: `Text.lines_append`, `Line.ofText_wrapped`,
`Footnotes.collect_wrapped`, `convertLines_wrapped`, `convertLines_moved`.
-/
import QuartoPretext.Proofs.Block.Balance
import QuartoPretext.Proofs.Document.Definitions
import QuartoPretext.Proofs.Document.Renumber
import QuartoPretext.Proofs.Text.Cut

namespace QuartoPretext

/-! ### Lines of texts put together -/

namespace Text

variable {s t : Text}

theorem trimEnd_append_space {c : Char} (hc : isSpace c) (s : Text) : trimEnd (s ++ [c]) = trimEnd s := by
  rw [trimEnd, trimEnd, List.reverse_append, List.reverse_singleton, List.singleton_append,
    List.dropWhile_cons_of_pos hc]

theorem trimEnd_dropReturn (s : Text) : trimEnd (dropReturn s) = trimEnd s := by
  rw [dropReturn, dropSuffix?]
  cases h : dropPrefix? ['\r'].reverse s.reverse with
  | none => rfl
  | some rest =>
    have hs := congrArg List.reverse (append_eq_of_dropPrefix? h)
    rw [List.reverse_append, List.reverse_reverse, List.reverse_reverse] at hs
    rw [Option.map_some, Option.getD_some, ← hs, trimEnd_append_space (by decide)]

theorem map_trimEnd_dropReturn (ss : List Text) : (ss.map dropReturn).map trimEnd = ss.map trimEnd := by
  rw [List.map_map]
  exact List.map_congr_left fun s _ => trimEnd_dropReturn s

theorem lines_newline (s t : Text) :
    lines (s ++ '\n' :: t) = (pieces (· == '\n') s).map dropReturn ++ lines t := by
  have ht := pieces_ne_nil (· == '\n') t
  rw [lines, lines, pieces_append (by decide), List.dropLast_append_of_ne_nil ht, List.map_append,
    List.append_assoc, List.getLastD_eq_getLast?, List.getLast?_append_of_ne_nil _ ht, ← List.getLastD_eq_getLast?]

theorem lines_cons {s : Text} (h : '\n' ∉ s) (t : Text) : lines (s ++ '\n' :: t) = dropReturn s :: lines t := by
  have hpieces : pieces (· == '\n') s = [s] := pieces_eq_singleton fun c hc => by
    simp only [beq_eq_false_iff_ne]
    rintro rfl
    exact h hc
  rw [lines_newline, hpieces]
  rfl

/-- The lines of a text that goes on after a line feed, without white space at their
ends. If the text before it ends with a line feed too, an empty line comes in between. -/
theorem lines_append (s t : Text) : ∃ gap, (∀ r ∈ gap, r = []) ∧
    (lines (s ++ '\n' :: t)).map trimEnd = (lines s).map trimEnd ++ gap ++ (lines t).map trimEnd := by
  obtain ⟨closed, last, hs⟩ : ∃ closed last, pieces (· == '\n') s = closed ++ [last] :=
    ⟨_, _, (List.dropLast_append_getLast (pieces_ne_nil (· == '\n') s)).symm⟩
  have hlines : lines s = closed.map dropReturn ++ if last.isEmpty then [] else [last] := by
    simp [lines, hs]
  rw [lines_newline, List.map_append, map_trimEnd_dropReturn, hs, hlines, List.map_append, List.map_append,
    map_trimEnd_dropReturn]
  by_cases hlast : last = []
  · exact ⟨[[]], by simp, by simp [hlast, trimEnd]⟩
  · exact ⟨[], by simp, by simp [hlast]⟩

/-- A text as the body of a div with a given fence, after an empty line. -/
def wrapped (fence body : Text) : Text := '\n' :: fence ++ '\n' :: body ++ "\n:::\n".toList

end Text

namespace Line

open Text

theorem map_text_numberFrom : ∀ (n : Nat) (ss : List Text), (numberFrom n ss).map (·.text) = ss
  | _, [] => rfl
  | n, s :: ss => by rw [numberFrom, List.map_cons, map_text_numberFrom]

theorem numberFrom_append : ∀ (n : Nat) (ss ts : List Text),
    numberFrom n (ss ++ ts) = numberFrom n ss ++ numberFrom (n + ss.length) ts
  | _, [], _ => rfl
  | n, s :: ss, ts => by
    rw [List.cons_append, numberFrom, numberFrom, numberFrom_append, List.cons_append, List.length_cons,
      Nat.add_assoc, Nat.add_comm 1]

theorem le_number_of_mem : ∀ {ss : List Text} {n : Nat} {l : Line}, l ∈ numberFrom n ss → n ≤ l.number
  | [], _, _, h => absurd h List.not_mem_nil
  | s :: ss, n, l, h => by
    rcases List.mem_cons.1 h with rfl | h
    · exact Nat.le_refl _
    · exact Nat.le_of_succ_le (le_number_of_mem h)

/-- The same texts from the next number on, and maybe empty ones after them. -/
theorem renumbered_numberFrom {gap : List Text} (hgap : ∀ r ∈ gap, r = []) : ∀ (ss : List Text) (n : Nat), 2 ≤ n →
    Renumbered (· + 1) (numberFrom n ss) (numberFrom (n + 1) (ss ++ gap))
  | [], n, _ => .blanks fun l hl => by
      rw [isBlank, hgap _ (mem_numberFrom hl)]
      rfl
  | s :: ss, n, hn => .cons (by simp only; omega) (renumbered_numberFrom hgap ss (n + 1) (by omega))

theorem lines_newline_cons (s : Text) : lines ('\n' :: s) = [] :: lines s := lines_cons (s := []) List.not_mem_nil s

theorem map_text_ofText (s : Text) : (ofText s).map (·.text) = (lines s).map trimEnd := map_text_numberFrom ..

/-- The lines of a text after an empty line, and those of the text in a div. -/
theorem ofText_wrapped (fence : Text) (hfence : '\n' ∉ fence) (hbare : trimEnd fence = fence) (body : Text) :
    ∃ ls ls' n, ofText ('\n' :: body) = ⟨1, []⟩ :: ls ∧
      ofText (wrapped fence body) = ⟨1, []⟩ :: ⟨2, fence⟩ :: (ls' ++ [⟨n, ":::".toList⟩]) ∧
      Renumbered (· + 1) ls ls' ∧ (∀ l ∈ ls, 2 ≤ l.number) ∧
      ∃ gap, (∀ r ∈ gap, r = []) ∧ ls'.map (·.text) = (ofText body).map (·.text) ++ gap := by
  obtain ⟨gap, hgap, hlines⟩ := lines_append body ":::\n".toList
  have hclose : (lines ":::\n".toList).map trimEnd = [":::".toList] := by decide
  have hwrapped : wrapped fence body = '\n' :: (fence ++ '\n' :: (body ++ '\n' :: ":::\n".toList)) := by
    simp [wrapped]
  refine ⟨_, numberFrom 3 ((lines body).map trimEnd ++ gap), 3 + ((lines body).map trimEnd ++ gap).length, ?_, ?_, renumbered_numberFrom hgap _ 2 (Nat.le_refl 2),
    fun l hl => le_number_of_mem hl, gap, hgap, ?_⟩
  · rw [ofText, lines_newline_cons]
    rfl
  · rw [ofText, hwrapped, lines_newline_cons, lines_cons hfence, List.map_cons, List.map_cons, trimEnd_dropReturn, hbare, hlines,
      hclose, numberFrom, numberFrom, numberFrom_append]
    rfl
  · rw [map_text_numberFrom, map_text_ofText]

end Line
/-! ### Footnotes -/

namespace Footnotes

variable {f : Nat → Nat} {ls ls' : List Line}

theorem definition?_of_isBlank {s : Text} (h : Text.isBlank s) : definition? s = none := by
  cases hd : definition? s with
  | none => rfl
  | some d =>
    obtain ⟨gap, rfl, _⟩ := definition?_eq (show definition? s = some (d.1, d.2) from hd)
    exact absurd (List.all_eq_true.1 h '[' List.mem_cons_self) (by decide)

theorem definitions_of_none : ∀ (fence : Option FenceMark) {ls : List Line}, (∀ l ∈ ls, definition? l.text = none) →
    definitions fence ls = []
  | _, [], _ => by rw [definitions]
  | fence, l :: ls, h => by
    obtain ⟨hl, hls⟩ := List.forall_mem_cons.1 h
    rw [definitions, hl, definitions_of_none _ hls, definitions_of_none _ hls, ite_self]

theorem bodyText_renumber (f : Nat → Nat) (first : Text) (more : List Line) :
    bodyText first (more.map (Line.renumber f)) = bodyText first more := by
  rw [bodyText, List.map_map]
  rfl

/-- Lines under other numbers define the same. -/
theorem definitions_renumbered (fence : Option FenceMark) (h : Line.Renumbered f ls ls') :
    definitions fence ls' = definitions fence ls := by
  fun_induction definitions fence ls generalizing ls' with
  | case1 =>
    cases h with
    | blanks hblank => exact definitions_of_none _ fun l hl => definition?_of_isBlank (hblank l hl)
  | case2 fence l rest hcode ih =>
    cases h with
    | cons _ hmore => rw [definitions, Line.text_renumber, if_pos hcode, ih hmore]
  | case3 fence l rest hcode hnone ih =>
    cases h with
    | cons _ hmore =>
      rw [definitions, Line.text_renumber, if_neg hcode, hnone]
      exact ih hmore
  | case4 fence l rest hcode id first hsome ih =>
    cases h with
    | cons _ hmore =>
      have hcontinuation := continuation_renumbered hmore
      rw [definitions, Line.text_renumber, if_neg hcode, hsome]
      simp only [hcontinuation.1, bodyText_renumber, ih hcontinuation.2]

theorem definitions_cons (hcode : FenceMark.next none l.text = none) (hnone : definition? l.text = none) :
    definitions none (l :: ls) = definitions none ls := by
  rw [definitions, if_neg (by simp [Extent.isCode_none_iff.2 hcode]), hnone]

/-- A div around a text leaves the table of footnotes as it is. -/
theorem collect_wrapped {fence : Text} {div : DivFence} (hdiv : DivFence.parse? fence = some div)
    (hnone : definition? fence = none) (h : Line.Renumbered f ls ls') (n : Nat) :
    collect (⟨1, []⟩ :: ⟨2, fence⟩ :: (ls' ++ [⟨n, ":::".toList⟩])) = collect (⟨1, []⟩ :: ls) := by
  have hlast (fence : Option FenceMark) : definitions fence [⟨n, ":::".toList⟩] = [] :=
    definitions_of_none fence (by simp only [List.mem_singleton, forall_eq]; rfl)
  rw [collect, collect, definitions_cons rfl rfl, definitions_cons (DivFence.next_of_parse? hdiv) hnone,
    definitions_cons rfl rfl, definitions_append rfl, hlast, List.append_nil, definitions_renumbered none h]

end Footnotes

/-! ### Reading and converting -/

variable {set : Setting} {ctx : Inline.Context} {l : Line} {ls : List Line} {label fence : Text} {attrs : Attributes}

/-- A line of a div fence with a label starts a div. -/
theorem BlockStart.of_divFence {n : Nat} (h : DivFence.parse? l.text = some (.opening n label attrs))
    (following : List Line) : BlockStart.of l following = .divOpen label attrs := by
  obtain ⟨rest, ht⟩ := DivFence.trim_of_parse? h
  have hblank : ¬l.isBlank := fun hb => by simp [Text.trim_of_isBlank hb] at ht
  have hdiv : DivFence.parse? (':' :: rest) = some (.opening n label attrs) := by
    rw [← ht, ← h, DivFence.parse?, DivFence.parse?, Text.trim_trim]
  have hcode : CodeFence.parse? (':' :: rest) = none := by
    rw [CodeFence.parse?, ← ht, Text.trim_trim, ht]
    rfl
  have hheading : heading? (':' :: rest) = none := rfl
  have hmatter : isFrontMatter l following = false := by
    rw [isFrontMatter, ht, Bool.and_assoc]
    exact Bool.and_false _
  rw [BlockStart.of, if_neg hblank, ht, hheading, hmatter, ofLine, hcode, hdiv]
  rfl

theorem DivFence.Balanced.append_gap {ss : List Text} (h : Balanced ss) : ∀ {gap : List Text}, (∀ r ∈ gap, r = []) →
    Balanced (ss ++ gap)
  | [], _ => by rwa [List.append_nil]
  | r :: gap, hgap => by
    obtain ⟨rfl, hmore⟩ := List.forall_mem_cons.1 hgap
    have hline : Balanced [[]] := .line rfl rfl
    simpa using (h.append hline).append_gap hmore

/-- A div reaches over balanced lines to its closing fence. -/
theorem Block.read_of_divFence {n : Nat} (hfence : DivFence.parse? l.text = some (.opening n label attrs))
    (hls : DivFence.Balanced (ls.map (·.text))) {c : Line} (hc : DivFence.Closes c.text) (rest : List Line) :
    Block.read l (ls ++ c :: rest) = .ok (.div l.number label attrs ls, rest) := by
  have hbody : Extent.divBody? 0 none (ls ++ c :: rest) = some (ls, rest) :=
    Extent.divBody?_eq_some_iff.2 ⟨c, hc, rfl, hls⟩
  rw [Block.read, BlockStart.of_divFence hfence]
  simp only [hbody]

/-- A text in a div is converted by converting the pieces of the div. -/
theorem convertLines_wrapped {n m : Nat} (hfence : DivFence.parse? fence = some (.opening n label attrs))
    (hls : DivFence.Balanced (ls.map (·.text))) (s : Session) :
    convertLines set ctx .document (⟨1, []⟩ :: ⟨2, fence⟩ :: (ls ++ [⟨m, ":::".toList⟩])) s =
      runPieces set ctx (Plan.ofDiv set.profile .document 2 label attrs ls) { s with line := some 2 } := by
  have hblank : ¬(Line.mk 2 fence).isBlank := by
    obtain ⟨rest, ht⟩ := DivFence.trim_of_parse? hfence
    intro hb
    simp [Text.trim_of_isBlank hb] at ht
  obtain ⟨k, hfirst⟩ := convertLines_dropWhile set ctx .document (⟨1, []⟩ :: ⟨2, fence⟩ :: (ls ++ [⟨m, ":::".toList⟩])) s
  rw [hfirst, List.dropWhile_cons_of_pos rfl, List.dropWhile_cons_of_neg hblank,
    convertLines_of_read (Block.read_of_divFence hfence hls ⟨3, rfl⟩ []), Plan.ofBlock]
  simp only [Block.line]
  split
  · next s' hrun => rw [convertLines, hrun]
  · next e hrun => rw [hrun]

/-- Lines after an empty first one are converted as they are one line further on without it. -/
theorem convertLines_moved {ls' : List Line} (h : Line.Renumbered (· + 1) ls ls') (hnumbers : ∀ k ∈ ls, 2 ≤ k.number)
    {s s' : Session} (hs : s.Alike s') (context : Context) : Session.ResultAlike (· + 1)
      (convertLines set ctx context (⟨1, []⟩ :: ls) s) (convertLines set ctx context ls' s') := by
  -- the empty line is one of the blank lines that the text starts with
  obtain ⟨k, hk⟩ := convertLines_dropWhile set ctx context (⟨1, []⟩ :: ls) s
  obtain ⟨k', hk'⟩ := convertLines_dropWhile set ctx context ls' s'
  have hfixed : ∀ l ∈ ls.dropWhile Line.isBlank, max 2 l.number = l.number := fun l hl =>
    Nat.max_eq_right (hnumbers l ((List.dropWhile_sublist _).subset hl))
  rw [hk, hk', List.dropWhile_cons_of_pos rfl]
  exact convertLines_renumber (fun m _ => by omega) hfixed h.dropWhile_isBlank (hs.line k k')

end QuartoPretext
