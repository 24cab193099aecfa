/-
# Pieces of output

What a block becomes is a tree of pieces. It is fixed before anything is
written, but for the lines of bodies, which are blocks again, and for texts
that are still to be transformed.

Key definitions: `Content`, `Context`, `Piece`, `Piece.weight`.
-/
import QuartoPretext.Line.Basic
import QuartoPretext.Markup.Element
import QuartoPretext.Warning

namespace QuartoPretext

/-- Where a block stands: in the body of the document, where headings open
sections, or in a container. -/
inductive Context
  | document
  | container
  deriving Repr, DecidableEq

/-- What an element on one line holds. -/
inductive Content
  | markup (xml : Text)
  /-- text to transform -/
  | inline (text : Text)
  /-- text to transform into an alert -/
  | alert (text : Text)
  deriving Repr, DecidableEq

inductive Piece
  | element (tag : Markup.Tag) (content : List Piece)
  | leaf (tag : Markup.Tag) (content : Content)
  | empty (tag : Markup.Tag)
  | code (lines : List Text)
  /-- a paragraph, unless its markup is blank -/
  | paragraph (text : Text)
  | warn (line : Nat) (cause : Cause)
  /-- the blocks of some lines -/
  | blocks (context : Context) (lines : List Line)
  /-- a heading in the body of the document -/
  | heading (line level : Nat) (title : Text) (id : Option Text)
  | frontMatter (line : Nat) (yaml : Text)
  | inclusion (href : Text)
  /-- one more exercise, without output -/
  | countExercise
  deriving Repr

namespace Piece

mutual

/-- The size of the largest body in a piece. -/
def weight : Piece → Nat
  | element _ content => weightOf content
  | blocks _ ls => Line.totalSize ls
  | _ => 0

/-- The size of the largest body in some pieces. -/
def weightOf : List Piece → Nat
  | [] => 0
  | p :: ps => max (weight p) (weightOf ps)

end

end Piece
end QuartoPretext
