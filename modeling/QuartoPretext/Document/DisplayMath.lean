/-
# Rows of display math

A block of display math is one expression, or rows: the parts between double
backslashes, or else the lines. The environments that only align are dropped,
and an alignment point becomes a macro.

Key definitions: `DisplayMath`, `DisplayMath.ofRows?`.
-/
import QuartoPretext.Text.Scan

namespace QuartoPretext

inductive DisplayMath
  | single (tex : Text)
  | rows (rows : List Text)
  deriving Repr, DecidableEq

namespace DisplayMath

open Text

/-- The mark between rows. -/
def rowMark : Text := ['\\', '\\']

/-- What follows the start or end of an aligning environment. -/
def environment? (s : Text) : Option Text :=
  let afterWord := (dropPrefix? "\\begin\x7b".toList s).orElse fun _ => dropPrefix? "\\end\x7b".toList s
  match afterWord with
  | none => none
  | some rest =>
    let afterName := (dropPrefix? "aligned".toList rest).orElse fun _ => dropPrefix? "align".toList rest
    match afterName with
    | none => none
    | some rest => dropPrefix? ['\x7d'] ((dropPrefix? ['*'] rest).getD rest)

/-- The text without the starts and ends of aligning environments. -/
def dropEnvironments (s : Text) : Text :=
  scan id (fun t => (environment? t).map fun rest => ([], rest)) s

/-- The stretches between the places that hold no character. -/
def stretches : List (Option Char) → List Text
  | [] => [[]]
  | none :: s => [] :: stretches s
  | some c :: s =>
    match stretches s with
    | piece :: more => (c :: piece) :: more
    | [] => [[c]]

/-- The parts of a text between double backslashes. -/
def splitRows (s : Text) : List Text :=
  stretches (scan some (fun t => (dropPrefix? rowMark t).map fun rest => ([none], rest)) s)

/-- Whether a text holds a double backslash. -/
def hasRowMark (s : Text) : Bool := (cut? rowMark s).isSome

/-- Writes alignment points as a macro; `escaped` tells whether an unescaped
backslash stands directly before the text. -/
def alignmentPoints (escaped : Bool) : Text → Text
  | [] => []
  | c :: s =>
    (if c == '&' && !escaped then "\\amp ".toList else [c]) ++
      alignmentPoints (c == '\\' && !escaped) s

/-- The rows of a text of several lines or with marks of rows or alignment. -/
def rowsOf (s : Text) : List Text :=
  let plain := dropEnvironments s
  let parts :=
    if hasRowMark plain then (splitRows plain).map fun r => joinWith [' '] (words r)
    else (lines plain).map trim
  (parts.filter (!·.isEmpty)).map (alignmentPoints false)

/-- Display math from the rows of its source, if there is anything in them. -/
def ofRows? (source : List Text) : Option DisplayMath :=
  match (source.map trim).filter (!·.isEmpty) with
  | [] => none
  | [tex] =>
    if hasRowMark tex || tex.contains '&' then
      if (rowsOf tex).isEmpty then none else some (.rows (rowsOf tex))
    else some (single tex)
  | ls =>
    let rs := rowsOf (joinWith ['\n'] ls)
    if rs.isEmpty then none else some (.rows rs)

end DisplayMath
end QuartoPretext
