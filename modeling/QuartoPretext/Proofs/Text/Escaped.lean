/-
# Escaped places

A backslash takes the character after it, so a character is escaped if an odd
number of backslashes stands directly before it: the last of them is not taken
itself. The same is said of the cells of inline text.

Key definitions: `oddAtEnd`, `Text.isEscaped`, `Cell.isEscaped`.
Key theorems: `oddAtEnd_concat`, `Text.isEscaped_pair`, `Cell.isEscaped_concat`.
-/
import QuartoPretext.Inline.Bracket

namespace QuartoPretext

/-- Whether an odd number of elements of a kind stands at the end of a list. -/
def oddAtEnd {α : Type} (p : α → Bool) (before : List α) : Bool := (before.reverse.takeWhile p).length % 2 == 1

section

variable {α : Type} {p : α → Bool}

@[simp] theorem oddAtEnd_nil : oddAtEnd p [] = false := rfl

/-- One more element of the kind makes an even number odd and an odd one even. -/
theorem oddAtEnd_concat (before : List α) (a : α) : oddAtEnd p (before ++ [a]) = (p a && !oddAtEnd p before) := by
  unfold oddAtEnd
  rw [List.reverse_append, List.reverse_singleton, List.singleton_append, List.takeWhile_cons]
  cases p a with
  | false => rfl
  | true =>
    simp only [if_true, List.length_cons, Bool.true_and]
    rcases Nat.mod_two_eq_zero_or_one (before.reverse.takeWhile p).length with h | h <;>
      rw [Nat.add_mod, h] <;> rfl

theorem oddAtEnd_of_not {a : α} (h : p a = false) (before : List α) : oddAtEnd p (before ++ [a]) = false := by
  rw [oddAtEnd_concat, h, Bool.false_and]

end

namespace Text

/-- Whether a character directly after this text is escaped. -/
def isEscaped (before : Text) : Bool := oddAtEnd (· == '\\') before

variable {before : Text} {c : Char}

theorem isEscaped_backslash (h : isEscaped before = false) : isEscaped (before ++ ['\\']) = true := by
  rw [isEscaped, oddAtEnd_concat]
  exact congrArg (! ·) h

/-- What a backslash has taken takes nothing. -/
theorem isEscaped_pair (h : isEscaped before = false) (c : Char) : isEscaped (before ++ ['\\', c]) = false := by
  have hpair : before ++ ['\\', c] = before ++ ['\\'] ++ [c] := by simp
  have hslash : oddAtEnd (· == '\\') (before ++ ['\\']) = true := isEscaped_backslash h
  rw [isEscaped, hpair, oddAtEnd_concat, hslash, Bool.not_true, Bool.and_false]

theorem isEscaped_of_ne (h : c ≠ '\\') (before : Text) : isEscaped (before ++ [c]) = false :=
  oddAtEnd_of_not (p := (· == '\\')) (beq_false_of_ne h) before

end Text

namespace Cell

/-- Whether a cell directly after these cells is escaped. -/
def isEscaped (before : List Cell) : Bool := oddAtEnd (isChar '\\') before

/-- Readers of cells keep this from one cell to the next. -/
theorem isEscaped_concat (before : List Cell) (c : Cell) :
    isEscaped (before ++ [c]) = c.escapesNext (isEscaped before) := oddAtEnd_concat before c

end Cell
end QuartoPretext
