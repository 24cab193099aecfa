/-
# Page layout commands

Commands that move text on a page and mean nothing elsewhere: spaces with a
length in braces, and single words.

Key definitions: `Layout.space?`, `Layout.word?`, `Layout.isCommandLine`.
-/
import QuartoPretext.Text.Basic

namespace QuartoPretext.Layout

open Text

/-- The names of the commands without argument. -/
def wordNames : List Text :=
  ["clearpage", "newpage", "pagebreak", "vfill", "noindent", "medskip", "bigskip", "smallskip"].map
    String.toList

/-- What follows a horizontal or vertical space at the start of a text. -/
def space? (s : Text) : Option Text :=
  let afterName := (dropPrefix? "\\hspace".toList s).orElse fun _ => dropPrefix? "\\vspace".toList s
  match afterName with
  | none => none
  | some rest =>
    match (dropPrefix? ['*'] rest).getD rest with
    | '\x7b' :: length =>
      match length.dropWhile (· != '\x7d') with
      | _ :: after => some after
      | [] => none
    | _ => none

/-- What follows a command word at the start of a text. -/
def word? (s : Text) : Option Text :=
  (dropPrefix? ['\\'] s).bind fun rest => wordNames.findSome? fun name => dropPrefix? name rest

def command? (s : Text) : Option Text := (space? s).orElse fun _ => word? s

/-- Commands up to the end, each followed by white space or not; `fuel` bounds
their number. -/
def isCommands : Nat → Text → Bool
  | _, [] => true
  | 0, _ => false
  | fuel + 1, s =>
    match command? s with
    | some rest => isCommands fuel (trimStart rest)
    | none => false

/-- A line of one command or more and nothing else. -/
def isCommandLine (s : Text) : Bool := !s.isEmpty && isCommands s.length s

end QuartoPretext.Layout
