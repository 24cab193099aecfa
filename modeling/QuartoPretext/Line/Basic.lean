/-
# Numbered source lines

A line knows its number in the document and keeps it wherever its text is cut
or moved to. A tab counts as four columns of indentation.

Key definitions: `Line`, `Line.indent`, `Line.dedent`, `Line.ofText`,
`Line.totalSize`.
-/
import QuartoPretext.Text.Basic

namespace QuartoPretext

structure Line where
  number : Nat
  text : Text
  deriving Repr, DecidableEq

namespace Line

/-- The text without the white space it starts with. -/
def trimmed (l : Line) : Text := Text.trimStart l.text

def isBlank (l : Line) : Bool := Text.isBlank l.text

/-- The columns taken by the spaces and tabs that a text starts with. -/
def columns : Text → Nat
  | ' ' :: s => 1 + columns s
  | '\t' :: s => 4 + columns s
  | _ => 0

/-- The text after the spaces and tabs that take up `width` columns; a tab that
starts within them goes as a whole. -/
def dropColumns : Nat → Text → Text
  | width + 1, ' ' :: s => dropColumns width s
  | width + 1, '\t' :: s => dropColumns (width - 3) s
  | _, s => s

def indent (l : Line) : Nat := columns l.text

/-- The line without up to `width` columns of its indentation. -/
def dedent (width : Nat) (l : Line) : Line := { l with text := dropColumns width l.text }

/-- Numbers texts from `n` on. -/
def numberFrom (n : Nat) : List Text → List Line
  | [] => []
  | s :: rest => ⟨n, s⟩ :: numberFrom (n + 1) rest

/-- The lines of a document, numbered from one, without white space at their ends. -/
def ofText (s : Text) : List Line := numberFrom 1 ((Text.lines s).map Text.trimEnd)

/-- The size of a list of lines: the characters of each and one for its end. -/
def totalSize : List Line → Nat
  | [] => 0
  | l :: ls => l.text.length + 1 + totalSize ls

/-- The number of the last line, or 0. -/
def lastNumber (ls : List Line) : Nat := (ls.getLast?.map Line.number).getD 0

end Line
end QuartoPretext
