/-
# Spans of inline text

Inline text is a list of spans: source text that rules may still change, and
marks that no later rule looks into. Rules that reach across spans see them as
cells, one for each character and one for each mark.

Key definitions: `Mark`, `Mark.xml`, `Span`, `Cell`, `Span.toCells`,
`Span.ofCells`, `Span.mapText`, `Span.render`.
-/
import QuartoPretext.Markup.Escape

namespace QuartoPretext

/-- A reference to a target by its key; a suppressed one shows its number only. -/
structure Reference where
  key : Text
  suppressed : Bool
  deriving Repr, DecidableEq

/-- The elements that emphasis makes. -/
inductive Emphasis
  | em
  | alert
  | term
  deriving Repr, DecidableEq

def Emphasis.name : Emphasis → Text
  | em => "em".toList
  | alert => "alert".toList
  | term => "term".toList

/-- Markup in the target language. Links and notes whose content is still
source text come as two marks with the same scope number. -/
inductive Mark
  /-- markup that stood in the source, escaped -/
  | fragment (xml : Text)
  | math (tex : Text)
  | displayMath (tex : Text)
  | code (content : Text)
  | references (refs : List Reference)
  /-- a footnote by its markup -/
  | footnote (xml : Text)
  /-- an index entry by its levels -/
  | index (levels : List Text)
  | bareLink (href : Text)
  | linkOpen (href : Text) (scope : Nat)
  | linkClose (scope : Nat)
  | noteOpen (scope : Nat)
  | noteClose (scope : Nat)
  | emphasisOpen (e : Emphasis)
  | emphasisClose (e : Emphasis)
  deriving Repr, DecidableEq

namespace Mark

open Markup

def startTag (name : Text) : Text := '<' :: name ++ ['>']

def endTag (name : Text) : Text := '<' :: '/' :: name ++ ['>']

/-- An element without attributes. -/
def element (name content : Text) : Text := startTag name ++ content ++ endTag name

/-- The start of a link's tag, up to the quote after its address. -/
def linkTag (href : Text) : Text := "<url href=\"".toList ++ escapeAttribute href ++ ['"']

def referenceXml (r : Reference) : Text :=
  "<xref ref=\"".toList ++ escapeAttribute r.key ++
    if r.suppressed then "\" text=\"global\"/>".toList else "\"/>".toList

/-- The markup that a mark stands for. -/
def xml : Mark → Text
  | fragment s => s
  | math tex => element "m".toList (escapeContent tex)
  | displayMath tex => element "me".toList (escapeContent tex)
  | code content => element "c".toList (escapeContent content)
  | references refs => Text.joinWith [',', ' '] (refs.map referenceXml)
  | footnote body => element "fn".toList body
  | index levels =>
    element "idx".toList (levels.flatMap fun l => element "h".toList (escapeContent l))
  | bareLink href => linkTag href ++ ['/', '>']
  | linkOpen href _ => linkTag href ++ ['>']
  | linkClose _ => endTag "url".toList
  | noteOpen _ => startTag "fn".toList
  | noteClose _ => endTag "fn".toList
  | emphasisOpen e => startTag e.name
  | emphasisClose e => endTag e.name

/-- The scope that a mark opens. -/
def opens? : Mark → Option Nat
  | linkOpen _ n | noteOpen n => some n
  | _ => none

/-- The scope that a mark closes. -/
def closes? : Mark → Option Nat
  | linkClose n | noteClose n => some n
  | _ => none

/-- Whether a mark stands at the edge of a scope. -/
def isEdge (m : Mark) : Bool := m.opens?.isSome || m.closes?.isSome

def isIndex : Mark → Bool
  | index _ => true
  | _ => false

end Mark

/-- A stretch of source text, or a mark. -/
inductive Span
  | text (s : Text)
  | mark (m : Mark)
  deriving Repr, DecidableEq

/-- A character of source text, or a mark. -/
inductive Cell
  | char (c : Char)
  | mark (m : Mark)
  deriving Repr, DecidableEq

def Cell.isChar (c : Char) : Cell → Bool
  | char d => d == c
  | mark _ => false

namespace Span

/-- The characters of a text as cells. -/
def cellsOf (s : Text) : List Cell := s.map Cell.char

def toCells (spans : List Span) : List Cell :=
  spans.flatMap fun
    | text s => cellsOf s
    | mark m => [.mark m]

/-- The spans of a list of cells: no text is empty, and no two texts are neighbours. -/
def ofCells : List Cell → List Span
  | [] => []
  | .mark m :: rest => mark m :: ofCells rest
  | .char c :: rest =>
    match ofCells rest with
    | text s :: more => text (c :: s) :: more
    | more => text [c] :: more

/-- Transforms every text on its own and leaves the marks as they are. -/
def mapText (f : Text → List Cell) (spans : List Span) : List Span :=
  ofCells (spans.flatMap fun
    | text s => f s
    | mark m => [.mark m])

/-- The marks among the spans. -/
def marks (spans : List Span) : List Mark :=
  spans.filterMap fun
    | text _ => none
    | mark m => some m

/-- The markup of a list of spans. -/
def render (spans : List Span) : Text :=
  spans.flatMap fun
    | text s => Markup.escapeText s
    | mark m => m.xml

end Span
end QuartoPretext
