/-
# Settings

Settings say how all documents of a book are converted. Together with the kind
of a document they make its profile.

Key definitions: `Config`, `Config.standard`, `Config.profile`, `Overrides`,
`Config.override`.
-/
import QuartoPretext.Profile

namespace QuartoPretext

structure Config where
  imageDir : Text
  figureWidth : Text
  codeBlocks : CodeBlockPolicy
  citations : CitationPolicy
  /-- the beginning of derived identifiers of chapters, unless it is the usual one -/
  chapterIds : Option Text
  exercisesIds : Option Text
  skipDivs : List Text
  xrefPrefixes : List Text
  deriving Repr, DecidableEq

/-- Settings from outside that win over those of a file. -/
structure Overrides where
  imageDir : Option Text
  figureWidth : Option Text
  codeBlocks : Option CodeBlockPolicy
  citations : Option CitationPolicy
  deriving Repr, DecidableEq

namespace Config

/-- The settings where nothing else is said. -/
def standard : Config :=
  let p := Profile.ofKind .chapter
  ⟨p.imageDir, p.figureWidth, p.codeBlocks, p.citations, none, none, p.skipDivs, p.xrefPrefixes⟩

/-- The settings with others in place of some of them. -/
def override (c : Config) (o : Overrides) : Config :=
  { c with
    imageDir := o.imageDir.getD c.imageDir
    figureWidth := o.figureWidth.getD c.figureWidth
    codeBlocks := o.codeBlocks.getD c.codeBlocks
    citations := o.citations.getD c.citations }

/-- The beginning of derived identifiers that is set for a kind of document. -/
def ids (c : Config) : DocumentKind → Option Text
  | .chapter => c.chapterIds
  | .exercises => c.exercisesIds

/-- The profile of a document. -/
def profile (c : Config) (kind : DocumentKind) : Profile where
  kind := kind
  rootId := none
  title := none
  idPrefix := (c.ids kind).getD (Profile.defaultIdPrefix kind)
  sourceStem := none
  imageDir := c.imageDir
  figureWidth := c.figureWidth
  codeBlocks := c.codeBlocks
  citations := c.citations
  skipDivs := c.skipDivs
  xrefPrefixes := c.xrefPrefixes

end Config
end QuartoPretext
