/-
# How blocks start

The first line of a block decides its kind. `BlockStart.of` tries the kinds in
a fixed order of precedence and keeps what the line says; only front matter
looks at the lines that follow.

Key definitions: `BlockStart`, `BlockStart.of`, `heading?`, `image?`,
`include?`, `listMarker?`, `mathTail`.
-/
import QuartoPretext.DivFence
import QuartoPretext.Fence.Open
import QuartoPretext.Footnotes
import QuartoPretext.Layout

namespace QuartoPretext

/-- The kind of a block with what its first line says about it. -/
inductive BlockStart
  | blank
  | heading (level : Nat) (title : Text)
  | frontMatter
  | fence (open' : CodeFence)
  | divOpen (label : Text) (attrs : Attributes)
  | divClose
  /-- display math by the text after its opening mark -/
  | displayMath (afterOpen : Text)
  | inclusion (path : Text)
  | image (caption source attrs : Text)
  | layout
  | rule
  | footnoteDefinition
  | listItem
  | paragraph
  deriving Repr, DecidableEq

namespace BlockStart

open Text

/-- The title without the number signs that close it. -/
def withoutClosing (s : Text) : Text :=
  let back := s.reverse.dropWhile isTabOrSpace
  match back.dropWhile (· == '#') with
  | c :: more =>
    if back.head? == some '#' && isTabOrSpace c then ((c :: more).dropWhile isTabOrSpace).reverse
    else back.reverse
  | [] => back.reverse

/-- The level and the title of a heading: one to four number signs, then space. -/
def heading? (s : Text) : Option (Nat × Text) :=
  let level := (s.takeWhile (· == '#')).length
  match s.dropWhile (· == '#') with
  | c :: rest =>
    if 1 ≤ level && level ≤ 4 && isTabOrSpace c then
      some (level, withoutClosing (rest.dropWhile isTabOrSpace))
    else none
  | [] => none

/-- What follows white space that is not empty. -/
def afterSpace? : Text → Option Text
  | [] => none
  | c :: s => if isSpace c then some (trimStart s) else none

/-- The path of an include shortcode. -/
def include? (s : Text) : Option Text :=
  match ((between? ['\x7b', '\x7b', '<'] ['>', '\x7d', '\x7d'] s).bind fun inner =>
      dropPrefix? "include".toList (trimStart inner)).bind afterSpace? with
  | none => none
  | some rest =>
    let path := trimEnd rest
    if path.isEmpty || path.any isSpace then none else some path

/-- The attributes after an image: none, or a brace block up to the end. -/
def imageAttributes? : Text → Option Text
  | [] => some []
  | s => between? ['\x7b'] ['\x7d'] s

/-- The source of an image, without its title, and its attributes. -/
def imageTarget? (s : Text) : Option (Text × Text) :=
  let isSource := fun c => c != ')' && !isSpace c
  let source := s.takeWhile isSource
  let rest := s.dropWhile isSource
  if source.isEmpty then none
  else
    let close := if rest.head?.any isSpace then rest.dropWhile (· != ')') else rest
    match close with
    | ')' :: tail => (imageAttributes? tail).map fun attrs => (source, attrs)
    | _ => none

/-- The caption up to the last bracket that a target follows, and the target. -/
def captioned? : Text → Option (Text × Text × Text)
  | [] => none
  | c :: s =>
    match captioned? s with
    | some (caption, target) => some (c :: caption, target)
    | none => ((dropPrefix? [']', '('] (c :: s)).bind imageTarget?).map fun target => ([], target)

/-- The caption, the source and the attributes of an image that stands alone. -/
def image? (s : Text) : Option (Text × Text × Text) := (dropPrefix? ['!', '['] s).bind captioned?

/-- Three rule characters of one kind or more, with spaces and tabs after them. -/
def isRule (s : Text) : Bool :=
  match s with
  | [] => false
  | c :: _ =>
    (c == '-' || c == '*' || c == '_') && s.all (fun d => d == c || isTabOrSpace d) &&
      3 ≤ s.count c

/-- The marker at the start of a text and what follows it. -/
def rawMarker? (s : Text) : Option (Text × Text) :=
  match s with
  | [] => none
  | c :: rest =>
    if c == '-' || c == '*' || c == '+' then some ([c], rest)
    else
      let digits := s.takeWhile isDigit
      let label := if digits.isEmpty && 'a' ≤ c && c ≤ 'z' then [c] else digits
      match s.drop label.length with
      | d :: after =>
        if 1 ≤ label.length && label.length ≤ 9 && (d == '.' || d == ')') then
          some (label ++ [d], after)
        else none
      | [] => none

/-- A list marker and the text after it and its space. -/
def listMarker? (s : Text) : Option (Text × Text) :=
  match rawMarker? s with
  | some (marker, []) => some (marker, [])
  | some (marker, c :: rest) =>
    if isTabOrSpace c then some (marker, rest.dropWhile isTabOrSpace) else none
  | none => none

/-- The equation identifier and the prose after a closing math mark. -/
def mathTail (after : Text) : Option Text × Option Text :=
  let s := trim after
  if s.isEmpty then (none, none)
  else
    match Attributes.splitTrailing? s with
    | some ([], inner) => ((Attributes.parse inner).id, none)
    | _ => (none, some s)

/-- The two dollar signs around display math. -/
def mathMark : Text := ['$', '$']

/-- The text after an opening math mark. Math that is closed on the same line
starts a block only if no prose follows it. -/
def displayMath? (s : Text) : Option Text :=
  (dropPrefix? mathMark s).filter fun after =>
    match cut? mathMark after with
    | some (_, tail) => (mathTail tail).2.isNone
    | none => true

/-- The line that opens front matter. -/
def yamlOpen : Text := ['-', '-', '-']

/-- Whether a line closes front matter. -/
def closesYaml (l : Line) : Bool :=
  let s := trim l.text
  s == yamlOpen || s == ['.', '.', '.']

/-- Front matter opens on the first line of a document, if a later line closes it. -/
def isFrontMatter (l : Line) (following : List Line) : Bool :=
  l.number == 1 && trim l.text == yamlOpen && following.any closesYaml

/-- The kinds that one line alone decides. -/
def ofLine (s : Text) : BlockStart :=
  match CodeFence.parse? s with
  | some f => fence f
  | none =>
  match DivFence.parse? s with
  | some (.opening _ label attrs) => divOpen label attrs
  | some (.closing _) => divClose
  | none =>
  match displayMath? s with
  | some after => displayMath after
  | none =>
  match include? s with
  | some path => inclusion path
  | none =>
  match image? s with
  | some (caption, source, attrs) => image caption source attrs
  | none =>
    if Layout.isCommandLine s then layout
    else if isRule s then rule
    else if (Footnotes.definition? s).isSome then footnoteDefinition
    else if (listMarker? s).isSome then listItem
    else paragraph

/-- The block that a line starts. -/
def of (l : Line) (following : List Line) : BlockStart :=
  if l.isBlank then blank
  else
    match heading? (trim l.text) with
    | some (level, title) => heading level title
    | none => if isFrontMatter l following then frontMatter else ofLine (trim l.text)

end BlockStart
end QuartoPretext
