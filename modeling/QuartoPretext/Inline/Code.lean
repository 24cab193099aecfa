/-
# Code in running text

A code span stands between two runs of backticks of the same length. One space
at each end belongs to the runs, if anything but white space stands between
them.

Key definitions: `Code.closing?`, `Code.unpad`, `Code.protect`.
-/
import QuartoPretext.Inline.Span
import QuartoPretext.Text.Scan

namespace QuartoPretext.Code

open Text

def isTick (c : Char) : Bool := c == '\x60'

/-- The text before the first run of exactly `n` backticks, and the text after
that run. -/
def closing? (n : Nat) : Text → Option (Text × Text)
  | [] => none
  | c :: s =>
    if isTick c then
      let run := c :: s.takeWhile isTick
      if run.length = n then some ([], s.dropWhile isTick)
      else (closing? n (s.dropWhile isTick)).map fun (content, rest) => (run ++ content, rest)
    else (closing? n s).map fun (content, rest) => (c :: content, rest)
termination_by s => s.length
decreasing_by
  · have := (List.dropWhile_sublist isTick (l := s)).length_le
    simp only [List.length_cons]
    omega
  · simp

/-- The content without one space at each end. -/
def unpad (s : Text) : Text :=
  match between? [' '] [' '] s with
  | some inner => if isBlank s then s else inner
  | none => s

/-- The code span at the start of a text, or the run of backticks as text. -/
def find? (s : Text) : Option (List Cell × Text) :=
  let run := s.takeWhile isTick
  let rest := s.dropWhile isTick
  if run.isEmpty then none
  else
    match closing? run.length rest with
    | some (content, after) => some ([.mark (.code (unpad content))], after)
    | none => some (Span.cellsOf run, rest)

/-- Turns the code spans in a text into marks. -/
def protect (s : Text) : List Cell := scan Cell.char find? s

end QuartoPretext.Code
