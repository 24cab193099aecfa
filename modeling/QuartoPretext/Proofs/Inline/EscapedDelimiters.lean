/-
# Escaped delimiters

Whether a dollar sign, a bracket or a delimiter of emphasis is escaped is asked by
three rules in three ways. The rules for math, for notes and for links read every
text as if each asked whether an odd number of backslashes stands directly before
the sign or the bracket. The rule for emphasis looks at one cell, the one before
the whole run: it takes a run for text after any backslash, and all of it.

Key definitions: `Note.readAt`, `Link.readAt`, `Emphasis.Takes`, `Emphasis.beforeRun`.
Key theorems: `Note.read_eq_readAt`, `Link.read_eq_readAt`, `Emphasis.takes_iff`,
`Inline.escaped_delimiters`.
-/
import Mathlib.Data.List.DropRight
import QuartoPretext.Inline.Transform
import QuartoPretext.Proofs.Emphasis.Runs
import QuartoPretext.Proofs.Inline.Bracket
import QuartoPretext.Proofs.Inline.MathDelimiters

namespace QuartoPretext

/-! ### Notes -/

namespace Note

/-- Reads cells for notes, where a bracket is asked for the cells before it whether it
is escaped, and whether a caret is the last of them. -/
def readAt (escapes : List Cell → Bool) (before : List Cell) (b : Bracketing) : List Cell → Bracketing
  | [] => b
  | c :: rest =>
    readAt escapes (before ++ [c])
      (if c.isChar '[' && !escapes before then b.openBracket (before.getLast?.any (Cell.isChar '^'))
        else if c.isChar ']' && !escapes before then close b
        else b.push c) rest

/-- Notes are read as they are by looking back. -/
theorem read_eq_readAt (b : Bracketing) (cs before : List Cell) :
    read (before.getLast?.any (Cell.isChar '^')) (Cell.isEscaped before) b cs =
      readAt Cell.isEscaped before b cs := by
  induction cs generalizing b before with
  | nil => rfl
  | cons c cs ih =>
    rw [read, readAt, ← ih, Cell.isEscaped_concat, List.getLast?_concat, Option.any_some]

end Note

/-! ### Links -/

namespace Link

/-- Reads cells for links, where a bracket is asked for the cells before it whether it
is escaped, and whether an exclamation mark is the last of them. -/
def readAt (escapes : List Cell → Bool) (before : List Cell) (b : Bracketing) : List Cell → Bracketing
  | [] => b
  | c :: rest =>
    if c.isChar '[' && !escapes before then
      readAt escapes (before ++ [c])
        (if before.getLast?.any (Cell.isChar '!') then b.push c else b.openBracket false) rest
    else if c.isChar ']' && !escapes before then
      match b.pending with
      | [] => readAt escapes (before ++ [c]) b.shut rest
      | br :: more =>
        match _h : target? rest with
        | some (href, after) =>
          readAt escapes (before ++ c :: rest.take (rest.length - after.length)) (close b br more href) after
        | none => readAt escapes (before ++ [c]) b.shut rest
    else readAt escapes (before ++ [c]) (b.push c) rest
termination_by cells => cells.length
decreasing_by
  all_goals simp only [List.length_cons]
  all_goals try omega
  have := length_target? _h
  omega

/-- What is read up to a parenthesis ends with it. -/
theorem inner?_eq_append : ∀ {cells after : List Cell} {depth : Nat} {s : Text},
    inner? depth cells = some (s, after) → ∃ used, cells = used ++ .char ')' :: after
  | [], _, _, _, h => by simp [inner?] at h
  | .mark _ :: _, _, _, _, h => by simp [inner?] at h
  | .char c :: rest, after, depth, s, h => by
    have keep {depth : Nat} (h : ((inner? depth rest).map fun p => (c :: p.1, p.2)) = some (s, after)) :
        ∃ used, Cell.char c :: rest = used ++ .char ')' :: after := by
      obtain ⟨⟨s', after'⟩, h', he⟩ := Option.map_eq_some_iff.1 h
      cases he
      obtain ⟨used, hrest⟩ := inner?_eq_append h'
      exact ⟨.char c :: used, congrArg (Cell.char c :: ·) hrest⟩
    unfold inner? at h
    simp only at h
    split at h
    · next hc =>
      split at h
      · cases h
        exact ⟨[], by rw [beq_iff_eq.1 hc]; rfl⟩
      · exact keep h
    · split at h
      · exact keep h
      · split at h
        · cases h
        · exact keep h

/-- So is a target. -/
theorem target?_eq_append {cells after : List Cell} {href : Text} (h : target? cells = some (href, after)) :
    ∃ used, cells = used ++ .char ')' :: after := by
  unfold target? at h
  split at h
  · split at h
    · next hi =>
      obtain ⟨_, _, he⟩ := Option.map_eq_some_iff.1 h
      cases he
      obtain ⟨used, rfl⟩ := inner?_eq_append hi
      exact ⟨.char '(' :: used, rfl⟩
    · cases h
  · cases h

/-- The cells that a target takes, from those after it. -/
theorem take_used (used after : List Cell) :
    (used ++ after).take ((used ++ after).length - after.length) = used := by
  rw [List.length_append, Nat.add_sub_cancel, List.take_left]

/-- After a character that is neither an exclamation mark nor a backslash, the reader is
told that neither stands there. -/
theorem read_after {c : Char} (hbang : c ≠ '!') (hslash : c ≠ '\\') (b : Bracketing) (rest before : List Cell) :
    read false false b rest = read ((before ++ [Cell.char c]).getLast?.any (Cell.isChar '!'))
      (Cell.isEscaped (before ++ [.char c])) b rest := by
  have hlast : (before ++ [Cell.char c]).getLast?.any (Cell.isChar '!') = false := by
    rw [List.getLast?_concat, Option.any_some]
    exact beq_false_of_ne hbang
  have hescaped : Cell.isEscaped (before ++ [.char c]) = false := by
    have hno : (Cell.char c).isChar '\\' = false := beq_false_of_ne hslash
    rw [Cell.isEscaped_concat, Cell.escapesNext, hno, Bool.false_and]
  rw [hlast, hescaped]

section Steps

variable {escapes : List Cell → Bool} {before rest after : List Cell} {bang escaped : Bool} {b : Bracketing} {br : Bracket}
  {more : List Bracket} {c : Cell} {href : Text}

/-- A bracket that is closed before a target is a link. -/
theorem read_link (hopen : ¬(c.isChar '[' && !escaped) = true) (hc : (c.isChar ']' && !escaped) = true)
    (hp : b.pending = br :: more) (ht : target? rest = some (href, after)) :
    read bang escaped b (c :: rest) = read false false (close b br more href) after := by
  rw [read, if_neg hopen, if_pos hc]
  simp only [hp]
  split
  · next ht' =>
    rw [ht] at ht'
    cases ht'
    rfl
  · next ht' => rw [ht] at ht'; cases ht'

/-- A closing bracket that closes none, or has no target, is text. -/
theorem read_shut (hopen : ¬(c.isChar '[' && !escaped) = true) (hc : (c.isChar ']' && !escaped) = true)
    (ht : b.pending = [] ∨ target? rest = none) :
    read bang escaped b (c :: rest) = read false false b.shut rest := by
  rw [read, if_neg hopen, if_pos hc]
  split
  · rfl
  · next hp =>
    split
    · next ht' =>
      rcases ht with ht | ht
      · rw [hp] at ht; cases ht
      · rw [ht] at ht'; cases ht'
    · rfl

theorem readAt_link (hopen : ¬(c.isChar '[' && !escapes before) = true) (hc : (c.isChar ']' && !escapes before) = true)
    (hp : b.pending = br :: more) (ht : target? rest = some (href, after)) : readAt escapes before b (c :: rest) =
      readAt escapes (before ++ c :: rest.take (rest.length - after.length)) (close b br more href) after := by
  rw [readAt, if_neg hopen, if_pos hc]
  simp only [hp]
  split
  · next ht' =>
    rw [ht] at ht'
    cases ht'
    rfl
  · next ht' => rw [ht] at ht'; cases ht'

theorem readAt_shut (hopen : ¬(c.isChar '[' && !escapes before) = true) (hc : (c.isChar ']' && !escapes before) = true)
    (ht : b.pending = [] ∨ target? rest = none) :
    readAt escapes before b (c :: rest) = readAt escapes (before ++ [c]) b.shut rest := by
  rw [readAt, if_neg hopen, if_pos hc]
  split
  · rfl
  · next hp =>
    split
    · next ht' =>
      rcases ht with ht | ht
      · rw [hp] at ht; cases ht
      · rw [ht] at ht'; cases ht'
    · rfl

end Steps

/-- Links are read as they are by looking back. -/
theorem read_eq_readAt (b : Bracketing) (cs before : List Cell) :
    read (before.getLast?.any (Cell.isChar '!')) (Cell.isEscaped before) b cs =
      readAt Cell.isEscaped before b cs := by
  fun_induction readAt Cell.isEscaped before b cs with
  | case1 before b => rw [read]
  | case2 before b c rest hc ih =>
    obtain rfl := Cell.eq_of_isChar (Bool.and_eq_true_iff.1 hc).1
    rw [← read_after (by decide) (by decide)] at ih
    rw [read, if_pos hc]
    exact ih
  | case3 before b c rest hopen hc hp ih =>
    obtain rfl := Cell.eq_of_isChar (Bool.and_eq_true_iff.1 hc).1
    rw [← read_after (by decide) (by decide)] at ih
    rw [read_shut hopen hc (.inl hp), ih]
  | case4 before b c rest hopen hc br more hp href after ht ih =>
    obtain rfl := Cell.eq_of_isChar (Bool.and_eq_true_iff.1 hc).1
    obtain ⟨used, hrest⟩ := target?_eq_append ht
    have htake : before ++ Cell.char ']' :: rest.take (rest.length - after.length) =
        before ++ .char ']' :: used ++ [.char ')'] := by
      rw [hrest, List.append_cons used, take_used, List.append_assoc, List.cons_append]
    rw [htake] at ih ⊢
    rw [← read_after (by decide) (by decide)] at ih
    rw [read_link hopen hc hp ht, ih]
  | case5 before b c rest hopen hc br more hp ht ih =>
    obtain rfl := Cell.eq_of_isChar (Bool.and_eq_true_iff.1 hc).1
    rw [← read_after (by decide) (by decide)] at ih
    rw [read_shut hopen hc (.inr ht), ih]
  | case6 before b c rest hopen hc ih =>
    rw [read, if_neg hopen, if_neg hc, ← ih, Cell.isEscaped_concat, List.getLast?_concat, Option.any_some]

end Link

/-! ### Emphasis -/

namespace Emphasis

/-- The cell before the run that a delimiter after these cells is in. -/
def beforeRun (c : Char) (before : List Cell) : Option Cell := (before.rdropWhile (Cell.isChar c)).getLast?

/-- Whether the delimiter after `before` is in a run that is found in some cells. -/
def Takes (cs before : List Cell) : Prop := ∃ ns r ns' k, nodes none [] cs = ns ++ .run r :: ns' ∧ k < r.length ∧
  before = sources ns ++ List.replicate k (.char r.char)

variable {c : Char} {before after : List Cell}

theorem rdropWhile_append_replicate {ds : List Cell} (h : ds.getLast? ≠ some (.char c)) (k : Nat) :
    (ds ++ List.replicate k (Cell.char c)).rdropWhile (Cell.isChar c) = ds := by
  unfold List.rdropWhile
  rw [List.reverse_append, List.reverse_replicate, dropWhile_replicate_append _ _ (by rwa [List.head?_reverse]),
    List.reverse_reverse]

/-- The cells before a delimiter are those before its run and those of the run. -/
theorem exists_eq_append_replicate (c : Char) (before : List Cell) : ∃ k,
    before = before.rdropWhile (Cell.isChar c) ++ List.replicate k (.char c) ∧
      (before.rdropWhile (Cell.isChar c)).getLast? ≠ some (.char c) := by
  refine ⟨(before.reverse.takeWhile (Cell.isChar c)).length, ?_, ?_⟩
  · rw [← List.reverse_inj, List.reverse_append, List.rdropWhile, List.reverse_reverse, List.reverse_replicate,
      ← takeWhile_isChar, List.takeWhile_append_dropWhile]
  · rw [List.rdropWhile, List.getLast?_reverse]
    exact head?_dropWhile_isChar c _

/-- The rule for emphasis asks the cell before the whole run. -/
theorem takes_iff (hc : isDelimiter c = true) :
    Takes (before ++ .char c :: after) before ↔ beforeRun c before ≠ some (.char '\\') := by
  constructor
  · rintro ⟨ns, r, ns', k, hnodes, hk, hbefore⟩
    obtain ⟨hrun, scope, hr⟩ := nodes_isRun none [] _ (fun _ _ h => nomatch h) hnodes
    rw [Option.or_none] at hrun
    have hlength : r.delimiters = r.length := by rw [hr, delimiters_makeRun]; rfl
    -- the cells at this place, read off the nodes
    have hchar : c = r.char := by
      have hsources := congrArg sources hnodes
      rw [sources_nodes, sources_append, sources_run, hlength, hbefore, List.append_assoc, List.append_right_inj,
        show r.length = k + (r.length - k - 1 + 1) by omega, List.replicate_add, List.append_assoc,
        List.append_right_inj] at hsources
      exact Cell.char.inj (List.cons.inj hsources).1
    subst hchar
    rw [beforeRun, hbefore, rdropWhile_append_replicate hrun.left_ne]
    exact hrun.unescaped
  · intro hbefore
    obtain ⟨k, hsplit, hleft⟩ := exists_eq_append_replicate c before
    have hcs : before ++ .char c :: after = before.rdropWhile (Cell.isChar c) ++
        List.replicate (k + (1 + (after.takeWhile (Cell.isChar c)).length)) (.char c) ++
          after.dropWhile (Cell.isChar c) := by
      rw [List.replicate_add, ← cons_takeWhile_isChar, ← List.append_assoc, ← hsplit, List.append_assoc,
        List.cons_append, List.takeWhile_append_dropWhile]
    obtain ⟨ns, r, ns', hnodes, hsources, rfl, hlength, -⟩ := nodes_complete none [] _ hcs
      ⟨hc, by omega, by rwa [Option.or_none], by rwa [Option.or_none], head?_dropWhile_isChar c after⟩
    exact ⟨ns, r, ns', k, hnodes, by omega, by rw [hsources]; exact hsplit⟩

/-- A delimiter after an odd number of backslashes has one before its run. -/
theorem beforeRun_of_isEscaped (hc : isDelimiter c = true) (h : Cell.isEscaped before = true) :
    beforeRun c before = some (.char '\\') := by
  rcases List.eq_nil_or_concat' before with rfl | ⟨more, d, rfl⟩
  · cases h
  · rw [Cell.isEscaped_concat] at h
    obtain rfl := Cell.eq_of_isChar (Bool.and_eq_true_iff.1 h).1
    have hne : ¬(Cell.isChar c (.char '\\') = true) := fun he => by
      cases beq_iff_eq.1 he
      cases hc
    rw [beforeRun, List.rdropWhile_concat_neg _ _ _ hne, List.getLast?_concat]

/-- A delimiter is taken for escaped exactly as it should be, unless a backslash before
its run escapes nothing: the backslash is escaped itself, or the delimiter is a later
one of the run. -/
theorem escapes_iff (hc : isDelimiter c = true) :
    (¬Takes (before ++ .char c :: after) before ↔ Cell.isEscaped before = true) ↔
      (beforeRun c before = some (.char '\\') → Cell.isEscaped before = true) := by
  rw [takes_iff hc, not_not]
  exact ⟨fun h => h.1, fun h => ⟨h, beforeRun_of_isEscaped hc⟩⟩

end Emphasis

namespace Inline

open Emphasis

/-- **Three rules for one notion.** The rules for math, notes and links treat a sign or
a bracket as escaped exactly if an odd number of backslashes stands directly before it.
The rule for emphasis treats a delimiter so if a backslash stands before its run, and
agrees with the others exactly where this backslash escapes the delimiter. -/
theorem escaped_delimiters (s : Text) (b : Bracketing) (cs before after : List Cell) {c : Char}
    (hc : isDelimiter c = true) :
    Math.pieces s = Math.piecesAt Text.isEscaped [] s ∧
    Note.read false false b cs = Note.readAt Cell.isEscaped [] b cs ∧
    Link.read false false b cs = Link.readAt Cell.isEscaped [] b cs ∧
    (¬Takes (before ++ .char c :: after) before ↔ beforeRun c before = some (.char '\\')) ∧
    ((¬Takes (before ++ .char c :: after) before ↔ Cell.isEscaped before = true) ↔
      (beforeRun c before = some (.char '\\') → Cell.isEscaped before = true)) := by
  refine ⟨Math.pieces_eq_piecesAt rfl s, Note.read_eq_readAt b cs [], Link.read_eq_readAt b cs [], ?_, escapes_iff hc⟩
  rw [takes_iff hc, not_not]

/-- An asterisk after one backslash is text, as it should be. -/
theorem escaped_delimiters_single :
    isDelimiter '*' = true ∧ Cell.isEscaped (Span.cellsOf "a \\".toList) = true ∧
      ¬Takes (Span.cellsOf "a \\".toList ++ .char '*' :: Span.cellsOf "b*".toList) (Span.cellsOf "a \\".toList) := by
  have hc : isDelimiter '*' = true := by decide
  have hescaped : Cell.isEscaped (Span.cellsOf "a \\".toList) = true := by decide
  obtain ⟨-, -, -, -, hiff⟩ := escaped_delimiters [] (.start 0) [] (Span.cellsOf "a \\".toList)
    (Span.cellsOf "b*".toList) hc
  exact ⟨hc, hescaped, (hiff.2 fun _ => hescaped).2 hescaped⟩

/-- An asterisk after two backslashes is text, though the second of them is what the
first one escapes. -/
theorem escaped_asterisk_unescaped :
    let before := Span.cellsOf "\\\\".toList
    let ctx : Context := ⟨.xref, [], .empty⟩
    Cell.isEscaped before = false ∧ ¬Takes (before ++ .char '*' :: Span.cellsOf "a*".toList) before ∧
      transform ctx "\\\\*a*".toList = ("\\*a*".toList, [.unmatched ['*']]) := by
  refine ⟨by decide, ?_, by decide +kernel⟩
  rw [takes_iff (by decide), not_not]
  decide

end Inline
end QuartoPretext
