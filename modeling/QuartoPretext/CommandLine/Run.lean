/-
# A run

Settings and solutions are loaded once, and then the inputs are converted one
after the other. An input that fails is reported, and the others still follow.

Key definitions: `Batch`, `Request.prepare`, `Request.target`,
`Request.convertInput`, `Request.run`, `exitCode`.
-/
import QuartoPretext.CommandLine.Arguments
import QuartoPretext.CommandLine.Message
import QuartoPretext.Config.Load
import QuartoPretext.Document.Convert

namespace QuartoPretext

/-- What all inputs of a run are converted with. -/
structure Batch where
  config : Config
  solutions : Option SolutionBook
  deriving Repr, DecidableEq

namespace Request

variable {m : Type → Type} [Monad m] [Host m]

def tell (message : Message) : m Unit := Host.tell message.text

/-- Tells how the run gets on, if that is asked for. -/
def note (r : Request) (message : Message) : m Unit :=
  if r.verbose then tell message else pure ()

/-- The settings that options set. -/
def overrides (r : Request) : Overrides := ⟨r.imageDir, none, r.codeBlocks, r.citations⟩

/-- The settings of a run. -/
def loadConfig (r : Request) : ExceptT Failure m Config := do
  match ← ExceptT.lift (Config.load r.config (some r.overrides)) with
  | .error f => throw (.config f)
  | .ok loaded =>
    match loaded.path with
    | some path => ExceptT.lift (r.note (.loadedConfig path))
    | none => pure ()
    return loaded.config

/-- The text of the file at a path. -/
def readFile (path : Text) : ExceptT Failure m Text := do
  match ← ExceptT.lift (Host.read path) with
  | .ok text => return text
  | .error f => throw (.file path f)

/-- The solutions of a run. -/
def loadSolutions (r : Request) : ExceptT Failure m (Option SolutionBook) := do
  match r.solutions with
  | none => return none
  | some path =>
    let book := SolutionBook.parse (← readFile path)
    ExceptT.lift (r.note (.loadedSolutions path book.entries.length))
    return some book

/-- Checks that the options of a run fit together, and loads what it needs. -/
def prepare (r : Request) : ExceptT Failure m Batch := do
  if r.id.isSome && 1 < r.inputs.length then throw .sharedId
  if r.solutions.isSome && r.kind != .exercises then throw .needlessSolutions
  let config ← r.loadConfig
  return ⟨config, ← r.loadSolutions⟩

/-- How an input is converted. Its name gives the identifier of the root, unless
that is given. -/
def setting (r : Request) (b : Batch) (input : Text) : Setting :=
  ⟨{ b.config.profile r.kind with sourceStem := Path.stem? input, rootId := r.id }, b.solutions⟩

/-- The path of the output where none is given. -/
def beside (input : Text) : Text := Path.withExtension "ptx".toList input

/-- The path of the output in a directory. -/
def inside (directory input : Text) : Text :=
  match Path.name? (beside input) with
  | some (name, _) => Path.join directory name
  | none => directory

/-- Whether a run has several inputs, so that its output is a directory. -/
def hasMany (r : Request) : Bool := 1 < r.inputs.length

/-- The path that the conversion of an input is written to. -/
def target (r : Request) (input : Text) : m Text := do
  match r.output with
  | none => return beside input
  | some path =>
    if r.hasMany then return inside path input
    else if ← Host.isDirectory path then return inside path input
    else return path

/-- Writes the conversion of an input. -/
def write (r : Request) (input xml : Text) : ExceptT Failure m Unit := do
  let target ← ExceptT.lift (r.target input)
  if Path.agrees target input then throw (.overwrite input)
  match ← ExceptT.lift (Host.write target xml) with
  | .ok () => ExceptT.lift (tell (.wrote target))
  | .error f => throw (.file target f)

/-- What a run does with a conversion. -/
def finish (r : Request) (input : Text) (c : Conversion) : ExceptT Failure m Unit :=
  match r.verb with
  | .convert => r.write input c.xml
  | .check => ExceptT.lift (tell (.checked input c.warnings.length))

/-- Converts an input. -/
def convertInput (r : Request) (b : Batch) (input : Text) : ExceptT Failure m Unit := do
  let text ← readFile input
  ExceptT.lift (r.note (.converting input r.kind))
  match convert (r.setting b input) text with
  | .error f => throw (.document input f)
  | .ok c =>
    ExceptT.lift (c.warnings.forM fun w => tell (.warning input w))
    if r.denyWarnings && !c.warnings.isEmpty then throw (.deniedWarnings input c.warnings.length)
    r.finish input c

/-- Converts inputs one after the other, and counts those that fail. -/
def convertAll (r : Request) (b : Batch) : List Text → m Nat
  | [] => return 0
  | input :: rest => do
    match ← (r.convertInput b input).run with
    | .ok () => convertAll r b rest
    | .error f =>
      tell (.failed f)
      return (← convertAll r b rest) + 1

/-- Makes the directory that the conversions of several inputs are written to. -/
def makeOutput (r : Request) : ExceptT Failure m Unit := do
  match r.output with
  | some path =>
    if r.hasMany then
      match ← ExceptT.lift (Host.createDirectories path) with
      | .ok () => pure ()
      | .error f => throw (.file path f)
  | none => pure ()

/-- Does what is asked. -/
def run (r : Request) : ExceptT Failure m Unit := do
  r.makeOutput
  let batch ← r.prepare
  let failed ← ExceptT.lift (r.convertAll batch r.inputs)
  if 0 < failed then throw (.inputs failed r.inputs.length)

end Request

variable {m : Type → Type} [Monad m] [Host m]

/-- Runs with some arguments, and gives the exit code: zero for success, one for a
failure and two for arguments that are wrong. -/
def runArguments (args : List Text) : m Nat := do
  match Request.ofArguments args with
  | .error .usage => return 2
  | .error .help | .error .version => return 0
  | .ok request =>
    match ← request.run.run with
    | .ok () => return 0
    | .error f =>
      Request.tell (.error f)
      return 1

end QuartoPretext
