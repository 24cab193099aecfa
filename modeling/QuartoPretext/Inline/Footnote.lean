/-
# Footnote markers

A marker `[^id]` stands for the note defined under its identifier. A marker
without a definition is dropped with a warning; one that stands too deep
within notes is dropped.

Key definitions: `Footnote.marker?`, `Footnote.pieces`, `Footnote.resolve`.
-/
import QuartoPretext.Footnotes
import QuartoPretext.Inline.Span
import QuartoPretext.Text.Scan
import QuartoPretext.Warning

namespace QuartoPretext.Footnote

open Text

/-- A character, or the identifier of a marker. -/
inductive Piece
  | char (c : Char)
  | marker (id : Text)
  deriving Repr, DecidableEq

/-- The identifier of the marker at the start of a text, and the text after it. -/
def marker? (s : Text) : Option (Text × Text) :=
  match dropPrefix? ['[', '^'] s with
  | none => none
  | some rest =>
    match rest.takeWhile Footnotes.isIdChar, rest.dropWhile Footnotes.isIdChar with
    | c :: id, ']' :: after => some (c :: id, after)
    | _, _ => none

def pieces (s : Text) : List Piece :=
  scan Piece.char (fun t => (marker? t).map fun (id, rest) => ([.marker id], rest)) s

/-- The cells that a marker becomes, and the warnings on the way. `body` gives
the markup of a definition, or nothing where notes are too deep. -/
def resolveMarker (table : Footnotes) (body : Text → Option Text × List Cause) (id : Text) :
    List Cell × List Cause :=
  match table.get? id with
  | none => ([], [.undefinedFootnote id])
  | some definition =>
    let (xml, causes) := body definition
    ((xml.map fun x => Cell.mark (.footnote x)).toList, causes)

def Piece.resolve (table : Footnotes) (body : Text → Option Text × List Cause) :
    Piece → List Cell × List Cause
  | char c => ([.char c], [])
  | marker id => resolveMarker table body id

/-- Turns the markers in a text into notes. -/
def resolve (table : Footnotes) (body : Text → Option Text × List Cause) (s : Text) : List Cell :=
  (pieces s).flatMap fun p => (p.resolve table body).1

/-- The warnings about the markers in a text and within their notes. -/
def warnings (table : Footnotes) (body : Text → Option Text × List Cause) (s : Text) : List Cause :=
  (pieces s).flatMap fun p => (p.resolve table body).2

end QuartoPretext.Footnote
