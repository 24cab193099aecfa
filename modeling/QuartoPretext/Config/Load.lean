/-
# Loading settings

Settings come from a file that is named, or else from the nearest file of
settings in the working directory and those above it, or else they are the
standard ones.

Key definitions: `Config.candidates`, `Config.load`.
-/
import QuartoPretext.Config.Expansion
import QuartoPretext.Config.Reader
import QuartoPretext.Config.Validation
import QuartoPretext.Files.Host

namespace QuartoPretext.Config

variable {m : Type → Type} [Monad m] [Host m]

/-- Settings and the file that they come from. -/
structure Loaded where
  config : Config
  path : Option Text
  deriving Repr, DecidableEq

/-- The name of a file of settings. -/
def fileName : Text := "qmd2ptx.toml".toList

/-- The paths of the files of settings in a directory and in those above it, the
nearest first. The names of the directory come backwards. -/
def candidates : List Text → List Text
  | [] => []
  | n :: above => Text.joinWith ['/'] (fileName :: n :: above).reverse :: candidates above

/-- The first path that leads somewhere, with what is there. -/
def firstPresent : List Text → m (Option (Text × Except FileFault Text))
  | [] => return none
  | path :: more => do
    match ← Host.read path with
    | .error .notFound => firstPresent more
    | found => return some (path, found)

/-- The settings in a text, with the variables that they refer to. -/
def ofText (s : Text) : m (Except ConfigFault Config) := do
  match ofToml? s with
  | none => return .error .malformed
  | some c =>
    let values ← c.variableNames.mapM fun name => return (name, ← Host.lookup name)
    return (c.expand fun name => (values.lookup name).join).bind validate

/-- The settings in a file that has been found. -/
def ofFile (path : Text) (text : Except FileFault Text) : m (Except ConfigFault Loaded) := do
  match text with
  | .ok s => return (← ofText s).map fun c => ⟨c, some path⟩
  | .error f => return .error (.unreadable f)

/-- The settings of the file at a path. -/
def ofPath (path : Text) : m (Except ConfigFault Loaded) := do
  match ← Host.read path with
  | .error .notFound | .error .notDirectory => return .error (.notFound path)
  | text => ofFile path text

/-- The settings of the nearest file, or the standard ones. -/
def discover : m (Except ConfigFault Loaded) := do
  let above := (Path.names (← Host.workingDirectory)).reverse
  match ← firstPresent (candidates above) with
  | some (path, text) => ofFile path text
  | none => return .ok ⟨standard, none⟩

/-- Loads settings, from a given file if there is one. Settings with overrides are
valid too. -/
def load (path : Option Text) (overrides : Option Overrides) : m (Except ConfigFault Loaded) := do
  let loaded ← match path with
    | some p => ofPath p
    | none => discover
  match overrides with
  | none => return loaded
  | some o =>
    return loaded.bind fun l => (l.config.override o).validate.map fun c => { l with config := c }

end QuartoPretext.Config
