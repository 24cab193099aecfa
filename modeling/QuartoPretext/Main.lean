/-
# The program

Runs happen on the machine itself: its files, its environment and its standard
error.
-/
import QuartoPretext.CommandLine.Run

namespace QuartoPretext

/-- What an error of the machine is to a run. -/
def FileFault.ofError (e : IO.Error) : FileFault :=
  match e with
  | .noFileOrDirectory .. => .notFound
  | .alreadyExists .. => .alreadyExists
  | .inappropriateType _ code _ => if code == 21 then .isDirectory else .notDirectory
  | e => .other (toString e).toList

/-- Does something with files, and gives the fault if it fails. -/
def attempt {α : Type} (act : IO α) : IO (Except FileFault α) := do
  try
    return .ok (← act)
  catch e =>
    return .error (.ofError e)

/-- The text of a file on the machine. -/
def readText (path : Text) : IO (Except FileFault Text) :=
  attempt (String.toList <$> IO.FS.readFile (String.ofList path))

/-- Whether a path leads to a directory on the machine. Only that of a directory
may end in a slash, and a directory has no text. -/
def leadsToDirectory (path : Text) : IO Bool := do
  match ← readText (path ++ ['/']) with
  | .error .isDirectory => return true
  | _ => return false

instance : Host IO where
  read := readText
  write path text := attempt (IO.FS.writeFile (String.ofList path) (String.ofList text))
  createDirectories path := attempt (IO.FS.createDirAll (String.ofList path))
  isDirectory := leadsToDirectory
  workingDirectory := return (← IO.currentDir).toString.toList
  lookup name := return (← IO.getEnv (String.ofList name)).map String.toList
  tell line := IO.eprintln (String.ofList line)

/-- What the program shows when it is asked for help. -/
def help : String :=
  "Converts Quarto markdown to PreTeXt.\n\n" ++
  "Usage: qmd2ptx convert [OPTIONS] <INPUTS>...\n" ++
  "       qmd2ptx check [OPTIONS] <INPUTS>...\n\n" ++
  "Options:\n" ++
  "      --kind <KIND>           chapter or exercises\n" ++
  "      --id <ID>               root xml:id (single input only)\n" ++
  "      --solutions <FILE>      solutions file for exercise sets\n" ++
  "      --image-dir <DIR>       figure image directory\n" ++
  "      --code-blocks <POLICY>  executable chunks: omit or listing\n" ++
  "      --citations <POLICY>    citations: xref or drop\n" ++
  "  -c, --config <FILE>         configuration file\n" ++
  "  -o, --output <PATH>         output file or directory (convert only)\n" ++
  "      --deny-warnings         fail a document that produces warnings\n" ++
  "  -v, --verbose               tell how the run gets on\n" ++
  "  -h, --help                  show this help"

end QuartoPretext

def main (args : List String) : IO UInt32 := do
  let args := args.map String.toList
  match QuartoPretext.Request.ofArguments args with
  | .error .help => IO.println QuartoPretext.help
  | .error .version => IO.println "qmd2ptx 0.1.0"
  | .error .usage => IO.eprintln QuartoPretext.help
  | .ok _ => pure ()
  let code ← (QuartoPretext.runArguments args : IO Nat)
  return code.toUInt32
