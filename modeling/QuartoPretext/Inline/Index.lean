/-
# Index entries

An index command holds the levels of an entry between exclamation marks. A
level may name a sort key before `@`; a page format after a bar is left out.

Key definitions: `Index.find?`, `Index.levels`, `Index.protect`.
-/
import QuartoPretext.Inline.Span
import QuartoPretext.Text.Scan

namespace QuartoPretext.Index

open Text

/-- The argument up to its closing brace, and the text after it. Groups in the
argument hold no groups; `inGroup` tells whether one is open. -/
def argument? (inGroup : Bool) : Text → Option (Text × Text)
  | [] => none
  | c :: s =>
    let keep := fun (found : Option (Text × Text)) => found.map fun (a, rest) => (c :: a, rest)
    if c == '\x7b' then if inGroup then none else keep (argument? true s)
    else if c == '\x7d' then if inGroup then keep (argument? false s) else some ([], s)
    else keep (argument? inGroup s)

/-- What is shown of a level: the text after its sort key. -/
def shown (level : Text) : Text := trim ((pieces (· == '@') level).getLastD [])

/-- The levels of an entry. -/
def levels (entry : Text) : List Text :=
  (pieces (· == '!') (entry.takeWhile (· != '|'))).map shown

/-- The argument of the index command at the start of a text, and the text after it. -/
def find? (s : Text) : Option (Text × Text) :=
  (dropPrefix? "\\index\x7b".toList s).bind (argument? false)

/-- Turns the index commands in a text into marks. -/
def protect (s : Text) : List Cell :=
  scan Cell.char (fun t => (find? t).map fun (e, rest) => ([.mark (.index (levels e))], rest)) s

end QuartoPretext.Index
