/-
# How far blocks reach

The lines of a fence, a div, a paragraph, front matter and display math, from
the lines that follow their first one. Each function gives what the block
keeps and the lines after the block.

Key definitions: `Extent.fenceBody?`, `Extent.divBody?`, `Extent.paragraph`,
`Extent.frontMatter`, `Extent.mathRows?`.
-/
import QuartoPretext.Block.Basic

namespace QuartoPretext.Extent

open Text

/-- The lines before the one that closes a fence, and the lines after that one. -/
def fenceBody? (mark : FenceMark) : List Line → Option (List Line × List Line)
  | [] => none
  | l :: rest =>
    if mark.closedBy l.text then some ([], rest)
    else (fenceBody? mark rest).map fun (body, after) => (l :: body, after)

/-- The lines before the fence that closes a div, and the lines after it.
`inner` divs are open inside it; `fence` is the code fence that is open. -/
def divBody? (inner : Nat) (fence : Option FenceMark) : List Line → Option (List Line × List Line)
  | [] => none
  | l :: rest =>
    let keep := Option.map fun (body, after) => (l :: body, after)
    if FenceMark.isCode fence l.text then keep (divBody? inner (FenceMark.next fence l.text) rest)
    else
      match DivFence.parse? l.text with
      | some (.opening ..) => keep (divBody? (inner + 1) none rest)
      | some (.closing _) => if inner = 0 then some ([], rest) else keep (divBody? (inner - 1) none rest)
      | none => keep (divBody? inner none rest)

/-- The lines that go on with a paragraph: up to a line that starts anything else. -/
def paragraph : List Line → List Line × List Line
  | [] => ([], [])
  | l :: rest =>
    if classify l rest = .paragraph then (l :: (paragraph rest).1, (paragraph rest).2)
    else ([], l :: rest)

/-- The lines up to the one that closes front matter, and the lines after it. -/
def frontMatter (ls : List Line) : List Line × List Line :=
  (ls.takeWhile (!BlockStart.closesYaml ·), (ls.dropWhile (!BlockStart.closesYaml ·)).drop 1)

/-- A text as the rows it makes: one, or none if it is empty. -/
def row (s : Text) : List Text := if s.isEmpty then [] else [s]

/-- The rows up to the closing math mark, the text after the mark and the lines
after it. -/
def mathRows? : List Line → Option (List Text × Text × List Line)
  | [] => none
  | l :: rest =>
    match cut? BlockStart.mathMark (trim l.text) with
    | some (before, tail) => some (row (trim before), tail, rest)
    | none => (mathRows? rest).map fun (rows, tail, after) => (l.text :: rows, tail, after)

end QuartoPretext.Extent
