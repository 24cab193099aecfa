/-
# Inline notes

A bracket directly after a caret holds the text of a note.

Key definitions: `Note.read`, `Note.resolve`.
-/
import QuartoPretext.Inline.Bracket

namespace QuartoPretext.Note

/-- Reads a closing bracket. A note replaces its caret as well. -/
def close (b : Bracketing) : Bracketing :=
  match b.pending with
  | br :: more => if br.isNote then b.enclose br.before.tail more .noteOpen .noteClose else b.shut
  | [] => b.shut

/-- Reads cells. `caret` and `escaped` tell whether a caret or an unescaped
backslash stands directly before them. -/
def read (caret escaped : Bool) (b : Bracketing) : List Cell → Bracketing
  | [] => b
  | c :: rest =>
    read (c.isChar '^') (c.escapesNext escaped)
      (if c.isChar '[' && !escaped then b.openBracket caret
        else if c.isChar ']' && !escaped then close b
        else b.push c) rest

/-- Resolves the inline notes, and gives the next free scope number. -/
def resolve (nextScope : Nat) (spans : List Span) : List Span × Nat :=
  let b := read false false (.start nextScope) (Span.toCells spans)
  (Span.ofCells b.cells, b.nextScope)

end QuartoPretext.Note
