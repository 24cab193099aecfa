/-
# Scanning a text for places of interest

A text is read from left to right; at each place a recogniser may take a
stretch and say what stands there, and a character that it does not take
stands for itself.

Key definitions: `Text.scan`.
-/
import QuartoPretext.Text.Basic

namespace QuartoPretext.Text

variable {α : Type}

/-- Reads a text with a recogniser, which gives what it found and the text after
it. A recogniser that takes nothing is passed over. -/
def scan (literal : Char → α) (find : Text → Option (List α × Text)) : Text → List α
  | [] => []
  | c :: s =>
    match find (c :: s) with
    | some (found, rest) =>
      if rest.length ≤ s.length then found ++ scan literal find rest
      else literal c :: scan literal find s
    | none => literal c :: scan literal find s
termination_by s => s.length
decreasing_by
  all_goals simp only [List.length_cons]
  all_goals omega

end QuartoPretext.Text
