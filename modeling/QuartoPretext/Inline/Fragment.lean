/-
# Markup that stands in the source

A source text may hold elements of the target language already. They are taken
as they stand: an element that closes itself, or one up to the first end tag
of its name. Within them only what is not a tag of a known name is escaped.

Key definitions: `Fragment.find?`, `Fragment.escape`, `Fragment.protect`.
-/
import QuartoPretext.Inline.Span
import QuartoPretext.Text.Scan

namespace QuartoPretext.Fragment

open Text

/-- The elements that source texts may hold. -/
def names : List Text :=
  ["m", "me", "c", "alert", "em", "term", "idx", "url", "fn", "q", "xref", "foreign"].map
    String.toList

/-- A known name at the start of a text, and the text after it. -/
def name? (s : Text) : Option (Text × Text) :=
  let name := s.takeWhile Char.isAlpha
  if names.contains name then some (name, s.dropWhile Char.isAlpha) else none

def isAngle (c : Char) : Bool := c == '<' || c == '>'

/-- The rest of a tag after its name: nothing, a slash, or white space and
attributes; and the text after the tag. -/
def tagRest? (s : Text) : Option (Text × Text) :=
  match s with
  | [] => none
  | '>' :: rest => some ([], rest)
  | '/' :: '>' :: rest => some (['/'], rest)
  | c :: _ =>
    if isSpace c then
      match s.dropWhile (!isAngle ·) with
      | '>' :: rest => some (s.takeWhile (!isAngle ·), rest)
      | _ => none
    else none

/-- The inside of a start tag or self-closing tag, without its brackets, and
the text after it. -/
def tag? (s : Text) : Option (Text × Text × Text) :=
  match name? s with
  | none => none
  | some (name, afterName) =>
    (tagRest? afterName).map fun (attrs, rest) => (name, attrs, rest)

/-- The content up to the first end tag of a name, and the text after the tag.
The content is on one line. -/
def content? (name s : Text) : Option (Text × Text) :=
  (cut? (Mark.endTag name) s).filter fun cr => !cr.1.contains '\n'

/-- The element at the start of a text, and the text after it. -/
def find? (s : Text) : Option (Text × Text) :=
  match s with
  | '<' :: inside =>
    match tag? inside with
    | none => none
    | some (name, attrs, rest) =>
      let start := '<' :: name ++ attrs ++ ['>']
      if attrs.getLast? == some '/' then some (start, rest)
      else
        (content? name rest).map fun (content, after) =>
          (start ++ content ++ Mark.endTag name, after)
  | _ => none

/-- A character between tags, or the inside of a tag. -/
inductive Piece
  | char (c : Char)
  | tag (inside : Text)
  deriving Repr, DecidableEq

/-- A tag of a known name, of any of the three kinds. -/
def tagPiece? (s : Text) : Option (List Piece × Text) :=
  match s with
  | '<' :: '/' :: inside =>
    (tag? inside).map fun (name, attrs, rest) => ([.tag ('/' :: name ++ attrs)], rest)
  | '<' :: inside => (tag? inside).map fun (name, attrs, rest) => ([.tag (name ++ attrs)], rest)
  | _ => none

/-- Escapes pieces; `between` holds the characters since the last tag, backwards. -/
def escapePieces (between : Text) : List Piece → Text
  | [] => Markup.escapeText between.reverse
  | .char c :: rest => escapePieces (c :: between) rest
  | .tag inside :: rest =>
    Markup.escapeText between.reverse ++ '<' :: Markup.escapeText inside ++ '>' :: escapePieces [] rest

/-- Escapes a fragment but for its tags and entity references. -/
def escape (s : Text) : Text := escapePieces [] (scan Piece.char tagPiece? s)

/-- Turns the elements in a text into marks. -/
def protect (s : Text) : List Cell :=
  scan Cell.char (fun t => (find? t).map fun (xml, rest) => ([.mark (.fragment (escape xml))], rest)) s

end QuartoPretext.Fragment
