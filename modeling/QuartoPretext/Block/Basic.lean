/-
# Blocks

A document is a sequence of blocks. A block knows the line that it starts on;
a container keeps the lines of its body as they are.

Key definitions: `Block`, `ListBlock`, `ListItem`, `ListStyle`, `BlockKind`,
`Block.line`.
-/
import QuartoPretext.Block.Start

namespace QuartoPretext

/-- What a block is, by its first line alone. -/
inductive BlockKind
  | blank
  | heading (level : Nat)
  | frontMatter
  | fence
  | divOpen
  | divClose
  | displayMath
  | inclusion
  | image
  | layout
  | rule
  | footnoteDefinition
  | listItem
  | paragraph
  deriving Repr, DecidableEq

/-- The kind without what the line says. -/
def BlockStart.kind : BlockStart → BlockKind
  | .blank => .blank
  | .heading level _ => .heading level
  | .frontMatter => .frontMatter
  | .fence _ => .fence
  | .divOpen .. => .divOpen
  | .divClose => .divClose
  | .displayMath _ => .displayMath
  | .inclusion _ => .inclusion
  | .image .. => .image
  | .layout => .layout
  | .rule => .rule
  | .footnoteDefinition => .footnoteDefinition
  | .listItem => .listItem
  | .paragraph => .paragraph

/-- The kind of block that a line starts. -/
def classify (l : Line) (following : List Line) : BlockKind := (BlockStart.of l following).kind

/-- How the items of a list are marked. -/
inductive ListStyle
  | unordered
  | ordered
  | lettered
  deriving Repr, DecidableEq

/-- The style of a marker: a bullet, a number in ASCII digits, or anything else. -/
def ListStyle.ofMarker : Text → ListStyle
  | [] => .lettered
  | c :: _ =>
    if c == '-' || c == '*' || c == '+' then .unordered
    else if c.isDigit then .ordered
    else .lettered

/-- An item of a list. Its body starts with the text after the marker; the
lines that continue it follow without the indentation of that text. -/
structure ListItem where
  line : Nat
  marker : Text
  body : List Line
  deriving Repr, DecidableEq

/-- A list of one style, and the line of a marker of another style that ended it. -/
structure ListBlock where
  line : Nat
  style : ListStyle
  items : List ListItem
  interruptedAt : Option Nat
  deriving Repr, DecidableEq

inductive Block
  | heading (line level : Nat) (title : Text) (attrs : Attributes)
  | frontMatter (line : Nat) (yaml : Text)
  | fence (line : Nat) (fence : CodeFence) (body : List Line)
  | div (line : Nat) (label : Text) (attrs : Attributes) (body : List Line)
  | displayMath (line : Nat) (rows : List Text) (id trailing : Option Text)
  | inclusion (line : Nat) (path : Text)
  | image (line : Nat) (caption source : Text) (attrs : Attributes)
  | list (list : ListBlock)
  | paragraph (line : Nat) (text : Text)
  /-- lines that produce no output -/
  | skipped (line : Nat) (kind : BlockKind)
  deriving Repr, DecidableEq

/-- The line that a block starts on. -/
def Block.line : Block → Nat
  | heading n .. | frontMatter n _ | fence n .. | div n .. | displayMath n .. | inclusion n _
  | image n .. | paragraph n _ | skipped n _ => n
  | list l => l.line

end QuartoPretext
