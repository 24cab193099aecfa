/-
# The system that a run happens on

A run reads and writes files, looks up variables and tells the user what
happens. It is written for any system that can do so; `Workspace` is one that
is a value.

Key definitions: `Host`, `Workspace`.
-/
import QuartoPretext.Files.Tree

namespace QuartoPretext

class Host (m : Type → Type) where
  /-- the text of a file -/
  read : Text → m (Except FileFault Text)
  /-- gives a file its text, and makes the file if it is missing -/
  write : Text → Text → m (Except FileFault Unit)
  createDirectories : Text → m (Except FileFault Unit)
  isDirectory : Text → m Bool
  /-- the path of the working directory, from the root -/
  workingDirectory : m Text
  /-- the value of a variable of the environment -/
  lookup : Text → m (Option Text)
  /-- shows a line to the user -/
  tell : Text → m Unit

/-- Files, a working directory, variables and what has been told. -/
structure Workspace where
  files : FileTree
  directory : List Text
  environment : List (Text × Text)
  told : List Text
  deriving Repr, DecidableEq

namespace Workspace

/-- A workspace where nothing has been told yet. -/
def start (files : FileTree) (directory : List Text) (environment : List (Text × Text)) : Workspace :=
  ⟨files, directory, environment, []⟩

/-- The path of a place, from the root. -/
def pathOf (place : List Text) : Text := place.flatMap ('/' :: ·)

/-- Goes on with the files that an operation leaves, if it succeeds. -/
def change (f : Workspace → Except FileFault FileTree) : StateM Workspace (Except FileFault Unit) :=
  fun w =>
    match f w with
    | .ok files => (.ok (), { w with files })
    | .error fault => (.error fault, w)

instance : Host (StateM Workspace) where
  read path := fun w => (w.files.read w.directory path, w)
  write path text := change fun w => w.files.write w.directory path text
  createDirectories path := change fun w => w.files.createDirectories w.directory path
  isDirectory path := fun w => (w.files.isDirectory w.directory path, w)
  workingDirectory := fun w => (pathOf w.directory, w)
  lookup name := fun w => (w.environment.lookup name, w)
  tell line := fun w => ((), { w with told := w.told ++ [line] })

end Workspace
end QuartoPretext
