/-
# The state of a conversion

What has been written, which sections are open, what is known about the root,
and the warnings so far. Here are the steps that read no blocks.

Key definitions: `Session`, `Session.inline`, `Session.closeTo`,
`Session.openSection`, `Session.heading`, `Session.write`.
-/
import QuartoPretext.Document.Piece
import QuartoPretext.Fault
import QuartoPretext.FrontMatter
import QuartoPretext.Inline.Transform
import QuartoPretext.Markup.Writer

namespace QuartoPretext

open Markup

/-- The first level-1 heading of a document. -/
structure RootHeading where
  xml : Text
  text : Text
  id : Option Text
  deriving Repr, DecidableEq

structure Session where
  writer : Writer
  /-- the levels of the open sections, innermost first -/
  levels : List Nat
  /-- the line that warnings are about -/
  line : Option Nat
  warnings : List Warning
  heading : Option RootHeading
  frontMatter : FrontMatter
  usesInclusion : Bool
  exerciseCount : Nat
  deriving Repr, DecidableEq

/-- The element of a section by the level of its heading. -/
def division (level : Nat) : Element :=
  if level ≤ 2 then .section' else if level = 3 then .subsection else .paragraphs

namespace Session

def start : Session := ⟨.empty, [], none, [], none, .empty, false, 0⟩

def openTag (s : Session) (t : Tag) : Session := { s with writer := s.writer.openTag t }

def close (s : Session) : Session := { s with writer := s.writer.close }

def add (s : Session) (e : Event) : Session := { s with writer := s.writer.add e }

def warn (s : Session) (line : Option Nat) (cause : Cause) : Session :=
  { s with warnings := s.warnings ++ [⟨line, cause⟩] }

/-- Transforms a text; its warnings are about the current line. -/
def inline (ctx : Inline.Context) (s : Session) (text : Text) : Text × Session :=
  let (xml, causes) := Inline.transform ctx text
  (xml, { s with warnings := s.warnings ++ causes.map fun c => ⟨s.line, c⟩ })

/-- Closes the sections of a level and of deeper ones. -/
def closeTo (level : Nat) (s : Session) : Session :=
  let deep := s.levels.takeWhile (level ≤ ·)
  { s with
    writer := deep.foldl (fun w _ => w.close) s.writer
    levels := s.levels.dropWhile (level ≤ ·) }

/-- Opens a section, after closing those that it does not stand in. It stands in
a section of the level above its own, or is of level 2. -/
def openSection (s : Session) (line level : Nat) (id : Option Text) (title : Text) (e : Element) :
    Except Fault Session :=
  let s := s.closeTo level
  if 2 < level && s.levels.head? != some (level - 1) then .error (.levelSkip line level)
  else
    let s := (s.openTag (.withId e id)).add (.leaf (.plain .title) title)
    .ok { s with levels := level :: s.levels }

def alertXml (xml : Text) : Text := Mark.element Emphasis.alert.name xml

def addAlert (s : Session) (xml : Text) : Session := s.add (.leaf (.plain .p) (alertXml xml))

/-- A heading in the body of the document. The first one of level 1 is the title
of the root, and a later one opens a section. -/
def documentHeading (ctx : Inline.Context) (kind : DocumentKind) (s : Session) (line level : Nat)
    (title : Text) (id : Option Text) : Except Fault Session :=
  let (xml, s) := s.inline ctx title
  if level = 1 then
    let s := s.closeTo 0
    if s.heading.isNone then .ok { s with heading := some ⟨xml, title, id⟩ }
    else (s.warn (some line) (.secondTitle title)).openSection line 2 id xml (division 2)
  else
    match kind with
    | .chapter => s.openSection line level id xml (division level)
    | .exercises =>
      if level = 2 then s.openSection line level id xml .subexercises
      else .ok (s.addAlert xml)

/-- Writes an element on one line. -/
def leaf (ctx : Inline.Context) (s : Session) (t : Tag) : Content → Session
  | .markup xml => s.add (.leaf t xml)
  | .inline text =>
    let (xml, s) := s.inline ctx text
    s.add (.leaf t (Text.trim xml))
  | .alert text =>
    let (xml, s) := s.inline ctx text
    s.add (.leaf t (alertXml xml))

/-- Writes a paragraph, unless its markup is blank. -/
def paragraph (ctx : Inline.Context) (s : Session) (text : Text) : Session :=
  let (xml, s) := s.inline ctx text
  if (Text.trim xml).isEmpty then s else s.add (.leaf (.plain .p) (Text.trim xml))

/-- Carries out a piece that holds no other pieces and no blocks. -/
def write (ctx : Inline.Context) (kind : DocumentKind) (s : Session) : Piece → Except Fault Session
  | .element .. | .blocks .. => .ok s
  | .leaf t content => .ok (s.leaf ctx t content)
  | .empty t => .ok (s.add (.empty t))
  | .code lines => .ok (s.add (.verbatim .code lines))
  | .paragraph text => .ok (s.paragraph ctx text)
  | .warn line cause => .ok (s.warn (some line) cause)
  | .heading line level title id => s.documentHeading ctx kind line level title id
  | .frontMatter line yaml =>
    match FrontMatter.parse? yaml with
    | some fm => .ok { s with frontMatter := fm }
    | none => .error (.frontMatter line)
  | .inclusion href =>
    .ok { s.add (.empty ⟨.inclusion, [(.href, href)]⟩) with usesInclusion := true }
  | .countExercise => .ok { s with exerciseCount := s.exerciseCount + 1 }

end Session
end QuartoPretext
