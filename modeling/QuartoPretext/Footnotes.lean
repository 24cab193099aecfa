/-
# Footnote definitions

A definition is a line `[^id]: text` outside code; indented lines directly
after it continue it. The last definition of an identifier counts.

Key definitions: `Footnotes.definition?`, `Footnotes.collect`,
`Footnotes.continuation`.
-/
import QuartoPretext.Assoc
import QuartoPretext.Fence.Mark
import QuartoPretext.Line.Basic

namespace QuartoPretext

/-- The text of each defined identifier. -/
abbrev Footnotes := Assoc Text Text

namespace Footnotes

open Text

/-- The characters of an identifier. -/
def isIdChar (c : Char) : Bool := c != ']' && !isSpace c

/-- The identifier of a definition line and the text after it. -/
def definition? (s : Text) : Option (Text × Text) :=
  match dropPrefix? ['[', '^'] s with
  | none => none
  | some rest =>
    let id := rest.takeWhile isIdChar
    match id, dropPrefix? [']', ':'] (rest.dropWhile isIdChar) with
    | _ :: _, some text => some (id, trimStart text)
    | _, _ => none

/-- Whether a line continues the definition above it. -/
def continues (l : Line) : Bool := !l.isBlank && 2 ≤ l.indent

/-- The lines that continue a definition, and the lines after it. -/
def continuation (ls : List Line) : List Line × List Line :=
  (ls.takeWhile continues, ls.dropWhile continues)

/-- The text of a definition from its first line and the lines that continue it. -/
def bodyText (first : Text) (more : List Line) : Text :=
  joinWith [' '] ((trim first :: more.map fun l => trim l.text).filter (!·.isEmpty))

/-- The definitions in order; `fence` is the code fence that is open. -/
def definitions (fence : Option FenceMark) : List Line → List (Text × Text)
  | [] => []
  | l :: rest =>
    if FenceMark.isCode fence l.text then definitions (FenceMark.next fence l.text) rest
    else
      match definition? l.text with
      | none => definitions none rest
      | some (id, first) =>
        (id, bodyText first (continuation rest).1) :: definitions none (continuation rest).2
termination_by ls => ls.length
decreasing_by
  all_goals
    have := (List.dropWhile_sublist continues (l := rest)).length_le
    simp only [continuation, List.length_cons]
    omega

/-- The table of all definitions. -/
def collect (ls : List Line) : Footnotes := Assoc.ofList (definitions none ls)

end Footnotes
end QuartoPretext
