/-
# Backslash escapes

A backslash before ASCII punctuation stands for that character. Layout
commands within text are dropped first.

Key definitions: `Escape.dropLayout`, `Escape.unescape`, `Escape.resolve`.
-/
import QuartoPretext.Inline.Span
import QuartoPretext.Layout
import QuartoPretext.Text.Scan

namespace QuartoPretext.Escape

open Text

/-- What follows a layout command at the start of a text. A command word ends
where a word ends. -/
def layout? (s : Text) : Option Text :=
  (Layout.space? s).orElse fun _ =>
    match Layout.word? s with
    | some rest => if rest.head?.any isWord then none else some rest
    | none => none

/-- The text without layout commands. -/
def dropLayout (s : Text) : Text := scan id (fun t => (layout? t).map fun rest => ([], rest)) s

/-- The text with its escapes resolved. -/
def unescape : Text → Text
  | [] => []
  | [c] => [c]
  | c :: d :: s =>
    if c == '\\' && isAsciiPunctuation d then d :: unescape s else c :: unescape (d :: s)

/-- Resolves the escapes in a text. -/
def resolve (s : Text) : List Cell := Span.cellsOf (unescape (dropLayout s))

end QuartoPretext.Escape
