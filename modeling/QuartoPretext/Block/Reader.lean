/-
# Reading blocks

`Block.read` takes the block that starts at a line from that line and the
lines that follow, and gives back the lines after the block.

Key definitions: `Block.read`, `Block.title`, `Cursor.read`.
-/
import QuartoPretext.Block.Extent
import QuartoPretext.Block.ListReader
import QuartoPretext.Fault
import QuartoPretext.Line.Cursor

namespace QuartoPretext.Block

open Text

/-- Whether the brace block after a title gives the heading attributes. -/
def isTitleBlock (inner : Text) : Bool :=
  inner.contains '=' ||
    match trimStart inner with
    | [] => false
    | c :: _ => c == '#' || c == '.'

/-- A title without the attribute block at its end, and the attributes. -/
def title (raw : Text) : Text × Attributes :=
  match Attributes.splitTrailing? raw with
  | some (text, inner) => if isTitleBlock inner then (text, Attributes.parse inner) else (raw, Attributes.none)
  | none => (raw, Attributes.none)

/-- Display math from the text after its opening mark. -/
def readMath (line : Nat) (afterOpen : Text) (following : List Line) :
    Except Fault (Block × List Line) :=
  match cut? BlockStart.mathMark afterOpen with
  | some (content, tail) =>
    let (id, trailing) := BlockStart.mathTail tail
    .ok (displayMath line (Extent.row (trim content)) id trailing, following)
  | none =>
    match Extent.mathRows? following with
    | none => .error (.openMath line)
    | some (rows, tail, rest) =>
      let (id, trailing) := BlockStart.mathTail tail
      .ok (displayMath line (Extent.row (trim afterOpen) ++ rows) id trailing, rest)

/-- Reads the block that starts at `l`. -/
def read (l : Line) (following : List Line) : Except Fault (Block × List Line) :=
  let start := BlockStart.of l following
  match start with
  | .blank => .ok (skipped l.number start.kind, following.dropWhile Line.isBlank)
  | .heading level raw =>
    let (text, attrs) := title raw
    .ok (heading l.number level text attrs, following)
  | .frontMatter =>
    let (yaml, rest) := Extent.frontMatter following
    .ok (frontMatter l.number (yaml.flatMap fun y => y.text ++ ['\n']), rest)
  | .fence open' =>
    match Extent.fenceBody? open'.mark following with
    | some (body, rest) => .ok (fence l.number open' body, rest)
    | none => .error (.openFence l.number open'.opener)
  | .divOpen label attrs =>
    match Extent.divBody? 0 none following with
    | some (body, rest) => .ok (div l.number label attrs body, rest)
    | none => .error (.openDiv l.number label)
  | .divClose => .error (.strayDivClose l.number)
  | .displayMath afterOpen => readMath l.number afterOpen following
  | .inclusion path => .ok (inclusion l.number path, following)
  | .image caption source attrs =>
    .ok (image l.number caption source (Attributes.parse attrs), following)
  | .layout | .rule => .ok (skipped l.number start.kind, following)
  | .footnoteDefinition => .ok (skipped l.number start.kind, (Footnotes.continuation following).2)
  | .listItem =>
    let (items, rest) := ListReader.read l following
    .ok (list items, rest)
  | .paragraph =>
    let (more, rest) := Extent.paragraph following
    .ok (paragraph l.number (joinWith [' '] ((l :: more).map fun p => trim p.text)), rest)

/-- The lines that are left when reading stops at a fault: a fence or a div
without its end is passed by its first line, math by all lines, a stray close
not at all. -/
def afterFault (l : Line) (following : List Line) : Fault → List Line
  | .openFence .. | .openDiv .. => following
  | .openMath _ => []
  | _ => l :: following

end QuartoPretext.Block

namespace QuartoPretext.Cursor

/-- Reads the block that a cursor stands on. At the end there is nothing but
blank. -/
def read (c : Cursor) : Except Fault Block × Cursor :=
  match c.rest with
  | [] => (.ok (.skipped c.lineNumber .blank), c)
  | l :: following =>
    match Block.read l following with
    | .ok (b, rest) => (.ok b, { c with rest })
    | .error f => (.error f, { c with rest := Block.afterFault l following f })

end QuartoPretext.Cursor
