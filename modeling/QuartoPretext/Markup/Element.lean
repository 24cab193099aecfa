/-
# Elements and attributes of the target language

The names of the elements that blocks become, and of their attributes.

Key definitions: `Element`, `Element.name`, `AttributeName`, `Tag`.
-/
import QuartoPretext.Markup.Escape

namespace QuartoPretext.Markup

inductive Element
  | chapter | exercises
  | section' | subsection | paragraphs | subexercises
  | title | p
  | ul | ol | li
  | note | introduction | assemblage | example' | exercise | statement | solution
  | figure | table | caption | image | shortdescription
  | program | code
  | md | me | mrow
  | inclusion
  deriving Repr, DecidableEq

def Element.name : Element → String
  | chapter => "chapter"
  | exercises => "exercises"
  | section' => "section"
  | subsection => "subsection"
  | paragraphs => "paragraphs"
  | subexercises => "subexercises"
  | title => "title"
  | p => "p"
  | ul => "ul"
  | ol => "ol"
  | li => "li"
  | note => "note"
  | introduction => "introduction"
  | assemblage => "assemblage"
  | example' => "example"
  | exercise => "exercise"
  | statement => "statement"
  | solution => "solution"
  | figure => "figure"
  | table => "table"
  | caption => "caption"
  | image => "image"
  | shortdescription => "shortdescription"
  | program => "program"
  | code => "code"
  | md => "md"
  | me => "me"
  | mrow => "mrow"
  | inclusion => "xi:include"

inductive AttributeName
  | id | href | source | width | language | marker | inclusionSpace
  deriving Repr, DecidableEq

def AttributeName.name : AttributeName → String
  | id => "xml:id"
  | href => "href"
  | source => "source"
  | width => "width"
  | language => "language"
  | marker => "marker"
  | inclusionSpace => "xmlns:xi"

/-- An element with its attributes in order. -/
structure Tag where
  element : Element
  attrs : List (AttributeName × Text)
  deriving Repr, DecidableEq

namespace Tag

/-- An element without attributes. -/
def plain (e : Element) : Tag := ⟨e, []⟩

/-- An element with an identifier, if there is one. -/
def withId (e : Element) (id : Option Text) : Tag := ⟨e, (id.map fun i => (.id, i)).toList⟩

def attributeText (a : AttributeName × Text) : Text :=
  ' ' :: a.1.name.toList ++ '=' :: '"' :: escapeAttribute a.2 ++ ['"']

/-- The start of a tag, without the bracket that closes it. -/
def openText (t : Tag) : Text := '<' :: t.element.name.toList ++ t.attrs.flatMap attributeText

def endText (e : Element) : Text := '<' :: '/' :: e.name.toList ++ ['>']

end Tag
end QuartoPretext.Markup
