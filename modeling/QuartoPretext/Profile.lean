/-
# Profiles

A profile says how a document is converted: what kind of document it is, how
its root is named, where its figures lie and what becomes of code, citations
and divs.

Key definitions: `Profile`, `Profile.ofKind`, `Profile.derivedId`, `slugify`.
-/
import QuartoPretext.Policy

namespace QuartoPretext

/-- What a document is. -/
inductive DocumentKind
  | chapter
  | exercises
  deriving Repr, DecidableEq

/-- What becomes of chunks that are neither figure nor table. -/
inductive CodeBlockPolicy
  | omit
  | listing
  deriving Repr, DecidableEq

/-- What becomes of citations. -/
inductive CitationPolicy
  | xref
  | drop
  deriving Repr, DecidableEq

instance : Policy DocumentKind where
  what := "document kind"
  all := [.chapter, .exercises]
  name
    | .chapter => "chapter"
    | .exercises => "exercises"

instance : Policy CodeBlockPolicy where
  what := "code block policy"
  all := [.omit, .listing]
  name
    | .omit => "omit"
    | .listing => "listing"

instance : Policy CitationPolicy where
  what := "citation policy"
  all := [.xref, .drop]
  name
    | .xref => "xref"
    | .drop => "drop"

/-- The stretches of ASCII letters and digits in lower case, joined with hyphens. -/
def slugify (s : Text) : Text :=
  Text.joinWith ['-']
    (((Text.pieces (!·.isAlphanum) s).filter (!·.isEmpty)).map Text.lowerAscii)

/-- The name of the root element. -/
def DocumentKind.rootElement : DocumentKind → Text
  | .chapter => "chapter".toList
  | .exercises => "exercises".toList

structure Profile where
  kind : DocumentKind
  rootId : Option Text
  title : Option Text
  idPrefix : Text
  sourceStem : Option Text
  imageDir : Text
  figureWidth : Text
  codeBlocks : CodeBlockPolicy
  citations : CitationPolicy
  skipDivs : List Text
  xrefPrefixes : List Text
  deriving Repr, DecidableEq

namespace Profile

/-- The beginning of derived identifiers unless another is set. -/
def defaultIdPrefix : DocumentKind → Text
  | .chapter => "ch-".toList
  | .exercises => "exercises-".toList

def defaultSkipDivs : List Text :=
  ["content-visible", "content-hidden", "pronunciation"].map String.toList

def defaultXrefPrefixes : List Text := ["fig", "tbl", "sec", "eq", "exr"].map String.toList

/-- The settings of a kind of document where nothing else is said. -/
def ofKind (kind : DocumentKind) : Profile where
  kind := kind
  rootId := none
  title := none
  idPrefix := defaultIdPrefix kind
  sourceStem := none
  imageDir := "images".toList
  figureWidth := "70%".toList
  codeBlocks := .omit
  citations := .xref
  skipDivs := defaultSkipDivs
  xrefPrefixes := defaultXrefPrefixes

/-- Whether a div class is dropped with its content. -/
def skips (p : Profile) (className : Text) : Bool := p.skipDivs.contains className

/-- The slug that identifiers are made of: of the source stem, or else of the title. -/
def baseSlug (p : Profile) (title : Option Text) : Text :=
  let slug := ((p.sourceStem.orElse fun _ => title).map slugify).getD []
  if slug.isEmpty then "document".toList else slug

/-- The root identifier of a document that is given none. -/
def derivedId (p : Profile) (title : Option Text) : Text := p.idPrefix ++ p.baseSlug title

end Profile
end QuartoPretext
