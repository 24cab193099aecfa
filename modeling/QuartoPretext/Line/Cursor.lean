/-
# A cursor over lines

A cursor moves forwards over a list of lines. It keeps the lines it has not
passed and the number of the last line of all, where it stands at the end.

Key definitions: `Cursor`, `Cursor.advance`, `Cursor.take`, `Cursor.lineNumber`.
-/
import QuartoPretext.Line.Basic

namespace QuartoPretext

structure Cursor where
  rest : List Line
  lastNumber : Nat
  deriving Repr, DecidableEq

namespace Cursor

/-- A cursor on the first line. -/
def ofLines (ls : List Line) : Cursor := ⟨ls, Line.lastNumber ls⟩

def isDone (c : Cursor) : Bool := c.rest.isEmpty

/-- The line the cursor stands on. -/
def peek? (c : Cursor) : Option Line := c.rest.head?

/-- The first line from here on that is not blank. -/
def peekNonBlank? (c : Cursor) : Option Line := c.rest.find? (!·.isBlank)

/-- The lines after the one the cursor stands on. -/
def lookahead (c : Cursor) : List Line := c.rest.tail

def advance (c : Cursor) : Cursor := { c with rest := c.rest.tail }

/-- Passes the blank lines from here on. -/
def skipBlank (c : Cursor) : Cursor := { c with rest := c.rest.dropWhile Line.isBlank }

/-- The next `n` lines, and the cursor after them. -/
def take (n : Nat) (c : Cursor) : List Line × Cursor :=
  (c.rest.take n, { c with rest := c.rest.drop n })

/-- The number of the line the cursor stands on, or of the last line at the end. -/
def lineNumber (c : Cursor) : Nat := (c.peek?.map Line.number).getD c.lastNumber

end Cursor
end QuartoPretext
