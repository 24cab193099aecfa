/-
# Reading lists

A list is read line by line. A marker at the indentation of the first item
starts an item of the same style or ends the list; a line that is indented
further, or a paragraph line with no blank line before it, continues the
latest item; blank lines belong to the list if one of these follows.

Key definitions: `ListReader.marker?`, `ListReader.Item`, `ListReader.scan`,
`ListReader.read`.
-/
import QuartoPretext.Block.Basic

namespace QuartoPretext.ListReader

open Text

/-- The marker of an item line, the text after it and the column where that
text starts, counted in bytes. -/
def marker? (l : Line) : Option (Text × Text × Nat) :=
  (BlockStart.listMarker? l.trimmed).map fun (marker, rest) =>
    (marker, rest, utf8Length l.text - utf8Length rest)

/-- What every line of a list is held against: the indentation of its first
line and its style. -/
structure Frame where
  base : Nat
  style : ListStyle

/-- The item that lines are added to, and the column of its text. -/
structure Item where
  item : ListItem
  column : Nat

/-- An item that consists of its marker line. -/
def Item.start (line : Nat) (marker first : Text) (column : Nat) : Item :=
  ⟨⟨line, marker, [⟨line, first⟩]⟩, column⟩

def Item.add (i : Item) (l : Line) : Item :=
  { i with item := { i.item with body := i.item.body ++ [l] } }

/-- The item without the blank lines at its end. -/
def Item.close (i : Item) : ListItem :=
  { i.item with body := (i.item.body.reverse.dropWhile Line.isBlank).reverse }

/-- Whether a line is at the indentation of the items. -/
def Frame.atMargin (f : Frame) (l : Line) : Bool := l.indent ≤ f.base + 1

/-- Whether a line is an item of this list. -/
def Frame.isSibling (f : Frame) (l : Line) : Bool :=
  f.atMargin l && (marker? l).any fun m => ListStyle.ofMarker m.1 == f.style

/-- Items, the line of a marker that interrupts them, and the lines after the list. -/
structure Outcome where
  items : List ListItem
  interruptedAt : Option Nat
  rest : List Line

def Outcome.cons (i : Item) (o : Outcome) : Outcome := { o with items := i.close :: o.items }

/-- Reads on with the item `i`; `gap` tells whether a blank line has been passed
since its marker. -/
def scan (f : Frame) (i : Item) (gap : Bool) : List Line → Outcome
  | [] => ⟨[i.close], none, []⟩
  | l :: rest =>
    if l.isBlank then
      match rest.dropWhile Line.isBlank with
      | [] => ⟨[i.close], none, l :: rest⟩
      | next :: _ =>
        if f.isSibling next then scan f i true (rest.dropWhile Line.isBlank)
        else if f.base + 2 ≤ next.indent then
          scan f (i.add ⟨l.number, []⟩) true (rest.dropWhile Line.isBlank)
        else ⟨[i.close], none, l :: rest⟩
    else
      match (marker? l).filter fun _ => f.atMargin l with
      | some (marker, first, column) =>
        if ListStyle.ofMarker marker = f.style then
          (scan f (Item.start l.number marker first column) false rest).cons i
        else ⟨[i.close], some l.number, l :: rest⟩
      | none =>
        if !f.atMargin l || (!gap && classify l rest = .paragraph) then
          scan f (i.add (l.dedent (min i.column l.indent))) gap rest
        else ⟨[i.close], none, l :: rest⟩
termination_by ls => ls.length
decreasing_by
  all_goals
    have := (List.dropWhile_sublist Line.isBlank (l := rest)).length_le
    simp only [List.length_cons]
    omega

/-- Reads the list that starts at `l`, and gives the lines after it. A line
without a marker makes a list without items. -/
def read (l : Line) (following : List Line) : ListBlock × List Line :=
  match marker? l with
  | none => (⟨l.number, .unordered, [], none⟩, following)
  | some (marker, first, column) =>
    let style := ListStyle.ofMarker marker
    let o := scan ⟨l.indent, style⟩ (Item.start l.number marker first column) false following
    (⟨l.number, style, o.items, o.interruptedAt⟩, o.rest)

end QuartoPretext.ListReader
