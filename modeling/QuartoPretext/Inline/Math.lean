/-
# Math in running text

Inline math stands between two dollar signs, display math between two pairs of
them. A backslash hides the character after it. The opening sign of inline
math is followed by neither white space nor a dollar sign; the closing one is
preceded by no white space and followed by no digit.

Key definitions: `Math.closing?`, `Math.displayClosing?`, `Math.pieces`,
`Math.protect`, `Math.warnings`.
-/
import QuartoPretext.Inline.Span
import QuartoPretext.Text.Scan
import QuartoPretext.Warning

namespace QuartoPretext.Math

open Text

/-- Puts characters in front of what precedes a closing sign. -/
def prepend (s : Text) (found : Option (Text × Text)) : Option (Text × Text) :=
  found.map fun (content, rest) => (s ++ content, rest)

/-- The text before the first closing sign of inline math and the text after it.
`before` is the character before the text; with `anyNext` a digit may follow
the sign. -/
def closing? (anyNext : Bool) (before : Char) : Text → Option (Text × Text)
  | [] => none
  | '\\' :: c :: s => prepend ['\\', c] (closing? anyNext c s)
  | '$' :: s =>
    if !isAsciiSpace before && (anyNext || !s.head?.any Char.isDigit) then some ([], s)
    else prepend ['$'] (closing? anyNext '$' s)
  | c :: s => prepend [c] (closing? anyNext c s)

/-- The text before the first closing pair of display math and the text after it. -/
def displayClosing? : Text → Option (Text × Text)
  | [] => none
  | '\\' :: c :: s => prepend ['\\', c] (displayClosing? s)
  | '$' :: '$' :: s => some ([], s)
  | c :: s => prepend [c] (displayClosing? s)

/-- What reading a text for math finds. -/
inductive Piece
  | char (c : Char)
  | inline (tex : Text)
  | display (tex : Text)
  /-- an opening sign without its closing one; the sign itself is text -/
  | unmatched (delimiter : Text)
  deriving Repr, DecidableEq

/-- Characters as pieces. -/
def chars (s : Text) : List Piece := s.map Piece.char

/-- Inline math after a dollar sign. Where every closing sign is refused for the
digit after it, the text up to the first of them is text. -/
def inline (s : Text) : List Piece × Text :=
  match s with
  | [] => (chars ['$'], [])
  | c :: _ =>
    if isAsciiSpace c then (chars ['$'], s)
    else
      match closing? false '$' s with
      | some (tex, rest) => ([.inline tex], rest)
      | none =>
        match closing? true '$' s with
        | some (skipped, rest) => (.unmatched ['$'] :: chars ('$' :: skipped ++ ['$']), rest)
        | none => (.unmatched ['$'] :: chars ['$'], s)

/-- What starts at a backslash or a dollar sign. -/
def piece? (s : Text) : Option (List Piece × Text) :=
  match s with
  | '\\' :: c :: rest => some (chars ['\\', c], rest)
  | '$' :: '$' :: rest =>
    match displayClosing? rest with
    | some (tex, after) => some ([.display (trim tex)], after)
    | none => some (.unmatched ['$', '$'] :: chars ['$', '$'], rest)
  | '$' :: rest => some (inline rest)
  | _ => none

def pieces (s : Text) : List Piece := scan Piece.char piece? s

def Piece.cells : Piece → List Cell
  | char c => [.char c]
  | inline tex => [.mark (.math tex)]
  | display tex => [.mark (.displayMath tex)]
  | unmatched _ => []

def Piece.warning? : Piece → Option Cause
  | unmatched delimiter => some (.unmatched delimiter)
  | _ => none

/-- Turns the math in a text into marks. -/
def protect (s : Text) : List Cell := (pieces s).flatMap Piece.cells

/-- What is wrong with the math in a text. -/
def warnings (s : Text) : List Cause := (pieces s).filterMap Piece.warning?

end QuartoPretext.Math
