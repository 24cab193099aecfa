/-
# The marks of code fences

A fence opens with three backticks or tildes or more and is closed by a run of
the same character that is at least as long, with nothing after it.

Key definitions: `FenceMark`, `FenceMark.detect?`, `FenceMark.closedBy`,
`FenceMark.next`, `FenceMark.isCode`.
-/
import QuartoPretext.Text.Basic

namespace QuartoPretext

/-- The character of an opening fence and how often it stands there. -/
structure FenceMark where
  char : Char
  length : Nat
  deriving Repr, DecidableEq

namespace FenceMark

open Text

/-- The mark at the start of a text. What follows a mark of backticks holds no
backtick. -/
def detect? : Text → Option FenceMark
  | [] => none
  | c :: s =>
    let run := 1 + (s.takeWhile (· == c)).length
    let info := s.dropWhile (· == c)
    if c != '\x60' && c != '~' then none
    else if run < 3 || (c == '\x60' && info.contains '\x60') then none
    else some ⟨c, run⟩

/-- Whether a line closes a fence with this mark. -/
def closedBy (m : FenceMark) (line : Text) : Bool :=
  let s := trimStart line
  m.length ≤ (s.takeWhile (· == m.char)).length && isBlank (s.dropWhile (· == m.char))

/-- The fence that is open after a line, from the one that was open before it. -/
def next : Option FenceMark → Text → Option FenceMark
  | none, line => detect? (trimStart line)
  | some m, line => if m.closedBy line then none else some m

/-- Whether a line is code or one of its two fences, from the fence that was
open before it. -/
def isCode (before : Option FenceMark) (line : Text) : Bool :=
  before.isSome || (next before line).isSome

end FenceMark
end QuartoPretext
