/-
# A brace block at the end of a text

`Attributes.splitTrailing?` separates the shortest balanced brace block that
ends a text from what stands before it. It reads the text from its end.

Key definitions: `Attributes.lastGroup`, `Attributes.splitTrailing?`.
-/
import QuartoPretext.Attributes.Basic

namespace QuartoPretext.Attributes

open Text

/-- Reads backwards to the brace that closes off `depth` open groups: what
lies inside it and what lies beyond it, both still backwards. -/
def lastGroup (depth : Nat) : Text → Option (Text × Text)
  | [] => Option.none
  | '\x7d' :: s => (lastGroup (depth + 1) s).map fun (a, b) => ('\x7d' :: a, b)
  | '\x7b' :: s =>
    if depth ≤ 1 then some ([], s)
    else (lastGroup (depth - 1) s).map fun (a, b) => ('\x7b' :: a, b)
  | c :: s => (lastGroup depth s).map fun (a, b) => (c :: a, b)

/-- The text before a trailing brace block, without white space at its end, and
the inside of the block. -/
def splitTrailing? (s : Text) : Option (Text × Text) :=
  match (trimEnd s).reverse with
  | '\x7d' :: r => (lastGroup 1 r).map fun (inside, before) => (trimEnd before.reverse, inside.reverse)
  | _ => Option.none

end QuartoPretext.Attributes
