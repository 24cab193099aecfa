/-
# Writing elements

Output is a sequence of events. The writer knows which elements are open, so
that an end tag always belongs to the latest start tag; the text shows how deep
an event stands by two spaces for each level.

Key definitions: `Event`, `Event.text`, `Writer`, `Writer.close`,
`Writer.finish`, `render`.
-/
import QuartoPretext.Markup.Element

namespace QuartoPretext.Markup

inductive Event
  | startTag (t : Tag)
  | endTag (e : Element)
  /-- an element on one line, by its markup -/
  | leaf (t : Tag) (content : Text)
  | empty (t : Tag)
  /-- an element of lines that keep their indentation -/
  | verbatim (e : Element) (lines : List Text)
  deriving Repr, DecidableEq

/-- How deep the events after this one stand. -/
def Event.depthAfter (depth : Nat) : Event → Nat
  | startTag _ => depth + 1
  | endTag _ => depth - 1
  | _ => depth

/-- Two spaces for each level. -/
def indentation (depth : Nat) : Text := List.replicate (2 * depth) ' '

/-- The lines of an event that stands `depth` levels deep; an end tag stands one
level less deep. -/
def Event.text (depth : Nat) : Event → Text
  | startTag t => indentation depth ++ t.openText ++ ['>', '\n']
  | endTag e => indentation (depth - 1) ++ Tag.endText e ++ ['\n']
  | leaf t content =>
    indentation depth ++ t.openText ++ ['>'] ++ content ++ Tag.endText t.element ++ ['\n']
  | empty t => indentation depth ++ t.openText ++ ['/', '>', '\n']
  | verbatim e lines =>
    indentation depth ++ (Tag.plain e).openText ++ ['>', '\n'] ++
      lines.flatMap (fun l => escapeContent l ++ ['\n']) ++
      indentation depth ++ Tag.endText e ++ ['\n']

/-- The text of a sequence of events of which the first stands `depth` levels deep. -/
def render (depth : Nat) : List Event → Text
  | [] => []
  | e :: es => e.text depth ++ render (e.depthAfter depth) es

/-- Events in order, and the elements that are open, innermost first. -/
structure Writer where
  events : List Event
  stack : List Element
  deriving Repr, DecidableEq

namespace Writer

def empty : Writer := ⟨[], []⟩

/-- Adds an event that neither opens nor closes an element. -/
def add (w : Writer) (e : Event) : Writer := { w with events := w.events ++ [e] }

def openTag (w : Writer) (t : Tag) : Writer :=
  ⟨w.events ++ [.startTag t], t.element :: w.stack⟩

/-- Closes the element that was opened last. -/
def close (w : Writer) : Writer :=
  match w.stack with
  | [] => w
  | e :: rest => ⟨w.events ++ [.endTag e], rest⟩

/-- All events, with what is still open closed. -/
def finish (w : Writer) : List Event := w.events ++ w.stack.map .endTag

end Writer
end QuartoPretext.Markup
