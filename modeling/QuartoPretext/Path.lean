/-
# File paths

A path is a text of names between slashes. Empty names and single dots count
for nothing, but for the very first one.

Key definitions: `Path.segments`, `Path.name?`, `Path.stem?`,
`Path.withExtension`, `Path.join`, `Path.agrees`.
-/
import QuartoPretext.Text.Basic

namespace QuartoPretext.Path

open Text

/-- Whether a name between slashes counts for nothing. -/
def isIdle (name : Text) : Bool := name == [] || name == ['.']

/-- Drops the names at the end that count for nothing; the names come backwards. -/
def dropIdle : List Text → List Text
  | [] => []
  | [first] => [first]
  | s :: rest => if isIdle s then dropIdle rest else s :: rest

/-- The names of a path up to the last one that counts, backwards. -/
def segments (path : Text) : List Text := dropIdle (pieces (· == '/') path).reverse

/-- The name of the file a path leads to, and the names before it, backwards. -/
def name? (path : Text) : Option (Text × List Text) :=
  match segments path with
  | [] => none
  | name :: before =>
    if name == ['.', '.'] || name == [] || (name == ['.'] && before.isEmpty) then none
    else some (name, before)

/-- The stem and the extension of a file name. A dot that starts the name
belongs to the stem. -/
def splitName (name : Text) : Text × Option Text :=
  match cutWhere? (· == '.') name.reverse with
  | some (extension, before) =>
    if before.isEmpty then (name, none) else (before.reverse, some extension.reverse)
  | none => (name, none)

/-- The name of a file without its extension. -/
def stem? (path : Text) : Option Text := (name? path).map fun nb => (splitName nb.1).1

/-- The path without the characters of its extension at the end. -/
def dropExtension (path : Text) : Text :=
  let extension := (name? path).bind fun nb => (splitName nb.1).2
  path.take (path.length - (extension.getD []).length)

/-- The path with what follows the last dot of its name replaced. -/
def setExtension (extension path : Text) : Text :=
  match name? path with
  | some (name, before) =>
    joinWith ['/'] (((splitName name).1 ++ '.' :: extension) :: before).reverse
  | none => path

/-- The path with another extension. A name that is nothing but an extension
after two dots leads nowhere without it. -/
def withExtension (extension path : Text) : Text := setExtension extension (dropExtension path)

/-- A path that starts at another one. -/
def join (base path : Text) : Text :=
  if path.head? == some '/' || base.isEmpty then path
  else if base.getLast? == some '/' then base ++ path
  else base ++ '/' :: path

/-- The names that count, and the first one in any case. -/
def names (path : Text) : List Text :=
  match pieces (· == '/') path with
  | first :: rest => first :: rest.filter fun n => !isIdle n
  | [] => []

/-- Whether two paths have the same names. -/
def agrees (p q : Text) : Bool := names p == names q

end QuartoPretext.Path
