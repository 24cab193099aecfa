/-
# Brackets across spans

Links and inline notes are brackets whose content stays source text and may
hold marks. Cells are read from left to right with the brackets that are open;
a bracket that is never resolved stays as it was written.

Key definitions: `Bracket`, `Bracketing`, `Bracketing.open`,
`Bracketing.shut`, `Bracketing.enclose`, `Bracketing.cells`.
-/
import QuartoPretext.Inline.Span

namespace QuartoPretext

/-- An open bracket: the cells since the bracket around it, backwards, and
whether it opens a note. -/
structure Bracket where
  before : List Cell
  isNote : Bool
  deriving Repr, DecidableEq

/-- Cells that have been read: the open brackets, innermost first, the cells
since the innermost one, backwards, and the next free scope number. -/
structure Bracketing where
  pending : List Bracket
  current : List Cell
  nextScope : Nat
  deriving Repr, DecidableEq

namespace Bracketing

def start (nextScope : Nat) : Bracketing := ⟨[], [], nextScope⟩

/-- Reads a cell that is no bracket. -/
def push (b : Bracketing) (c : Cell) : Bracketing := { b with current := c :: b.current }

/-- Reads an opening bracket. -/
def openBracket (b : Bracketing) (isNote : Bool) : Bracketing :=
  { b with pending := ⟨b.current, isNote⟩ :: b.pending, current := [] }

/-- Reads a closing bracket that stays text. The innermost bracket is text, too. -/
def shut (b : Bracketing) : Bracketing :=
  match b.pending with
  | [] => b.push (.char ']')
  | br :: more => { b with pending := more, current := .char ']' :: b.current ++ .char '[' :: br.before }

/-- Closes the innermost bracket as an element: its content between two marks
with a new scope, or one mark where it has no content. -/
def enclose (b : Bracketing) (before : List Cell) (more : List Bracket) (openMark closeMark : Nat → Mark) :
    Bracketing :=
  { pending := more
    current := .mark (closeMark b.nextScope) :: b.current ++ .mark (openMark b.nextScope) :: before
    nextScope := b.nextScope + 1 }

/-- All cells in order, the open brackets as text. -/
def cells (b : Bracketing) : List Cell :=
  (b.pending.foldl (fun inner br => inner ++ .char '[' :: br.before) b.current).reverse

end Bracketing

/-- Whether a cell stands directly after a backslash that is not escaped itself,
from whether the cell before it does. -/
def Cell.escapesNext (c : Cell) (escaped : Bool) : Bool := c.isChar '\\' && !escaped

end QuartoPretext
