/-
# Inline text to markup

Rules are applied to a list of spans in a fixed order; each looks at the text
that the rules before it have left. Footnotes are transformed on their own,
two levels deep.

Key definitions: `InlineRule`, `InlineRule.all`, `Inline.Context`,
`Inline.Run`, `Inline.apply`, `Inline.transform`.
-/
import QuartoPretext.Inline.Citation
import QuartoPretext.Inline.Code
import QuartoPretext.Inline.CrossReference
import QuartoPretext.Inline.Emphasis
import QuartoPretext.Inline.Escape
import QuartoPretext.Inline.Footnote
import QuartoPretext.Inline.Fragment
import QuartoPretext.Inline.Index
import QuartoPretext.Inline.Link
import QuartoPretext.Inline.Math
import QuartoPretext.Inline.Note

namespace QuartoPretext

inductive InlineRule
  /-- markup that stands in the source -/
  | passthrough
  | math
  | code
  /-- citations, footnotes, inline notes and index entries -/
  | notes
  | links
  | emphasis
  | crossReferences
  /-- backslash escapes and layout commands -/
  | escapes
  deriving Repr, DecidableEq

namespace InlineRule

/-- The rules in the order of their application. -/
def all : List InlineRule :=
  [passthrough, math, code, notes, links, emphasis, crossReferences, escapes]

def name : InlineRule → String
  | passthrough => "passthrough"
  | math => "math"
  | code => "code"
  | notes => "notes"
  | links => "links"
  | emphasis => "emphasis"
  | crossReferences => "cross-references"
  | escapes => "escapes"

end InlineRule

namespace Inline

/-- What a transformation depends on besides its text. -/
structure Context where
  citations : CitationPolicy
  /-- the kinds of targets of cross-references -/
  kinds : List Text
  footnotes : Footnotes
  deriving Repr, DecidableEq

/-- The context that a profile and a table of footnotes make. -/
def Context.of (p : Profile) (footnotes : Footnotes) : Context :=
  ⟨p.citations, p.xrefPrefixes, footnotes⟩

/-- A transformation on its way: its spans, the next free scope number and the
warnings so far. -/
structure Run where
  spans : List Span
  nextScope : Nat
  causes : List Cause
  deriving Repr, DecidableEq

def Run.start (s : Text) : Run := ⟨Span.ofCells (Span.cellsOf s), 0, []⟩

/-- Transforms every text on its own. -/
def Run.mapText (r : Run) (f : Text → List Cell) : Run := { r with spans := Span.mapText f r.spans }

/-- Adds the warnings about every text. -/
def Run.warn (r : Run) (f : Text → List Cause) : Run :=
  { r with causes := r.causes ++ r.spans.flatMap fun
      | .text s => f s
      | .mark _ => [] }

/-- Makes the markup of a footnote's text, or nothing where notes are too deep. -/
abbrev NoteBody := Text → Option Text × List Cause

def Run.notes (ctx : Context) (body : NoteBody) (r : Run) : Run :=
  let cited := r.mapText (Citation.resolve ctx.citations (CrossReference.isTarget ctx.kinds))
  let marked := (cited.warn (Footnote.warnings ctx.footnotes body)).mapText
    (Footnote.resolve ctx.footnotes body)
  let (spans, nextScope) := Note.resolve marked.nextScope marked.spans
  { marked with spans := Span.mapText Index.protect spans, nextScope }

def Run.links (r : Run) : Run :=
  let (spans, nextScope) := Link.resolve r.nextScope r.spans
  { r with spans, nextScope }

def Run.emphasis (r : Run) : Run :=
  let (spans, causes) := Emphasis.resolve r.spans
  { r with spans, causes := r.causes ++ causes }

/-- Applies one rule. -/
def apply (ctx : Context) (body : NoteBody) (r : Run) : InlineRule → Run
  | .passthrough => r.mapText Fragment.protect
  | .math => (r.warn Math.warnings).mapText Math.protect
  | .code => r.mapText Code.protect
  | .notes => r.notes ctx body
  | .links => r.links
  | .emphasis => r.emphasis
  | .crossReferences => { r with spans := CrossReference.resolve ctx.kinds r.spans }
  | .escapes => r.mapText Escape.resolve

/-- Applies all rules to a text. -/
def run (ctx : Context) (body : NoteBody) (s : Text) : Run :=
  InlineRule.all.foldl (apply ctx body) (.start s)

/-- Transforms a text within which notes may be `depth` levels deep: its markup
and its warnings. -/
def transformWithin (ctx : Context) : Nat → Text → Text × List Cause
  | 0, s =>
    let r := run ctx (fun _ => (none, [])) s
    (Span.render r.spans, r.causes)
  | depth + 1, s =>
    let r := run ctx (fun note =>
      let (xml, causes) := transformWithin ctx depth note
      (some xml, causes)) s
    (Span.render r.spans, r.causes)

/-- How deep notes are followed. -/
def noteDepth : Nat := 2

/-- Transforms a text: its markup and its warnings. -/
def transform (ctx : Context) (s : Text) : Text × List Cause := transformWithin ctx noteDepth s

end Inline
end QuartoPretext
