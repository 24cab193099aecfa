/-
# File trees

A place is the list of names from the root. The root is a directory; any other
place may hold a file or be a directory. Paths are followed from a working
directory, and every name but the last has to be that of a directory.

Key definitions: `FileTree`, `FileTree.at?`, `FileTree.enterAll`,
`FileTree.read`, `FileTree.write`, `FileTree.createDirectories`,
`FileTree.changes`.
-/
import QuartoPretext.Assoc
import QuartoPretext.Files.Fault
import QuartoPretext.Path

namespace QuartoPretext

open Text

inductive FileTree.Entry
  | file (text : Text)
  | directory
  deriving Repr, DecidableEq

structure FileTree where
  entries : Assoc (List Text) FileTree.Entry
  deriving Repr, DecidableEq

namespace FileTree

def empty : FileTree := ⟨.empty⟩

/-- What is at a place. -/
def at? (t : FileTree) (place : List Text) : Option Entry :=
  if place.isEmpty then some .directory else t.entries.get? place

def put (t : FileTree) (place : List Text) (e : Entry) : FileTree := ⟨t.entries.insert place e⟩

/-- Makes the directories that some names lead through from a place. -/
def makeAll (t : FileTree) (place : List Text) : List Text → FileTree
  | [] => t
  | n :: rest =>
    let here := place ++ [n]
    makeAll (if (t.at? here).isSome then t else t.put here .directory) here rest

/-- Adds a file, or a directory where there is no text, with the directories above it. -/
def add (t : FileTree) (place : List Text) (text : Option Text) : FileTree :=
  let t := t.makeAll [] place.dropLast
  match text with
  | some s => t.put place (.file s)
  | none => t.makeAll [] place

/-- The directory that a name leads to from a directory. -/
def enter (t : FileTree) (place : List Text) (name : Text) : Except FileFault (List Text) :=
  if Path.isIdle name then .ok place
  else if name == ['.', '.'] then .ok place.dropLast
  else
    match t.at? (place ++ [name]) with
    | some .directory => .ok (place ++ [name])
    | some (.file _) => .error .notDirectory
    | none => .error .notFound

/-- The directory that some names lead to one after the other. -/
def enterAll (t : FileTree) (place : List Text) : List Text → Except FileFault (List Text)
  | [] => .ok place
  | n :: rest =>
    match t.enter place n with
    | .ok place => enterAll t place rest
    | .error f => .error f

/-- Where a path starts. -/
def origin (directory : List Text) (path : Text) : List Text :=
  if path.head? == some '/' then [] else directory

/-- Whether a name can only be that of a directory. -/
def isDirectoryName (name : Text) : Bool := Path.isIdle name || name == ['.', '.']

/-- The text of the file at a path. -/
def read (t : FileTree) (directory : List Text) (path : Text) : Except FileFault Text :=
  let names := pieces (· == '/') path
  let last := names.getLastD []
  match t.enterAll (origin directory path) names.dropLast with
  | .error f => .error f
  | .ok place =>
    if path.isEmpty then .error .notFound
    else if isDirectoryName last then .error .isDirectory
    else
      match t.at? (place ++ [last]) with
      | some (.file text) => .ok text
      | some .directory => .error .isDirectory
      | none => .error .notFound

/-- The place of the file that writing to a path makes or changes. A slash at the
end of the path is only right for a directory. -/
def target (t : FileTree) (directory : List Text) (path : Text) : Except FileFault (List Text) :=
  let names := pieces (· == '/') path
  let named := (names.reverse.dropWhile (· == [])).reverse
  let last := named.getLastD []
  match t.enterAll (origin directory path) named.dropLast with
  | .error f => .error f
  | .ok place =>
    if path.isEmpty then .error .notFound
    else if named.length < names.length || isDirectoryName last then .error .isDirectory
    else if t.at? (place ++ [last]) == some .directory then .error .isDirectory
    else .ok (place ++ [last])

/-- Gives the file at a path its text. -/
def write (t : FileTree) (directory : List Text) (path text : Text) : Except FileFault FileTree :=
  (t.target directory path).map fun place => t.put place (.file text)

/-- Whether a path leads to a directory. -/
def isDirectory (t : FileTree) (directory : List Text) (path : Text) : Bool :=
  !path.isEmpty && (t.enterAll (origin directory path) (pieces (· == '/') path)).isOk

/-- Makes the directories that some names lead to and that are missing. -/
def createAll (t : FileTree) (place : List Text) : List Text → Except FileFault FileTree
  | [] => .ok t
  | n :: rest =>
    match t.enter place n with
    | .ok place => createAll t place rest
    | .error .notFound => createAll (t.put (place ++ [n]) .directory) (place ++ [n]) rest
    | .error f => .error (if rest.all (· == []) then .alreadyExists else f)

/-- Makes the directory at a path and those above it, where they are missing. -/
def createDirectories (t : FileTree) (directory : List Text) (path : Text) :
    Except FileFault FileTree :=
  t.createAll (origin directory path) (pieces (· == '/') path)

/-- The files of the second tree that are not so in the first one. -/
def changes (before after : FileTree) : List (List Text × Text) :=
  after.entries.entries.filterMap fun (place, e) =>
    match e with
    | .file text => if before.at? place == some e then none else some (place, text)
    | .directory => none

/-- Writing changes the file at the target and nothing else. -/
theorem at?_write {t t' : FileTree} {directory : List Text} {path text : Text} {place : List Text}
    (ht : t.target directory path = .ok place) (h : t.write directory path text = .ok t')
    (p : List Text) (hp : p ≠ []) :
    t'.at? p = if p == place then some (.file text) else t.at? p := by
  simp only [write, ht, Except.map, Except.ok.injEq] at h
  subst h
  simp [at?, put, hp, Assoc.get?_insert]

end FileTree
end QuartoPretext
