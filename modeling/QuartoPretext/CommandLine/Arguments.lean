/-
# Reading the arguments of a run

The first argument is a verb. Options and inputs follow in any order, each
option at most once. A long option is written `--name`, with its value after an
equals sign or as the next argument; short options may share one hyphen, and
the value of the last may follow at once. After `--` everything is an input.

Key definitions: `Flag`, `Stop`, `Reading`, `Request.ofArguments`.
-/
import QuartoPretext.CommandLine.Request

namespace QuartoPretext

open Text

/-- What may be given beside inputs. -/
inductive Flag
  | kind
  | id
  | solutions
  | imageDir
  | codeBlocks
  | citations
  | config
  | output
  | denyWarnings
  | verbose
  | help
  deriving Repr, DecidableEq

namespace Flag

def all : List Flag :=
  [kind, id, solutions, imageDir, codeBlocks, citations, config, output, denyWarnings, verbose, help]

def long : Flag → String
  | kind => "kind"
  | id => "id"
  | solutions => "solutions"
  | imageDir => "image-dir"
  | codeBlocks => "code-blocks"
  | citations => "citations"
  | config => "config"
  | output => "output"
  | denyWarnings => "deny-warnings"
  | verbose => "verbose"
  | help => "help"

def short? : Flag → Option Char
  | config => some 'c'
  | output => some 'o'
  | verbose => some 'v'
  | help => some 'h'
  | _ => none

def takesValue : Flag → Bool
  | denyWarnings | verbose | help => false
  | _ => true

/-- The options of a verb: only a conversion that is written has an output. -/
def ofVerb (verb : Verb) : List Flag := all.filter fun o => verb == .convert || o != output

/-- A path has to name something. -/
def path? (s : Text) : Option (Option Text) := if s.isEmpty then none else some (some s)

/-- The request with an option and its value, if the value is right. -/
def set? (o : Flag) (value : Text) (r : Request) : Option Request :=
  match o with
  | kind => (Policy.parse? value).map fun k => { r with kind := k }
  | id => some { r with id := some value }
  | solutions => (path? value).map fun p => { r with solutions := p }
  | imageDir => some { r with imageDir := some value }
  | codeBlocks => (Policy.parse? value).map fun p => { r with codeBlocks := some p }
  | citations => (Policy.parse? value).map fun p => { r with citations := some p }
  | config => (path? value).map fun p => { r with config := p }
  | output => (path? value).map fun p => { r with output := p }
  | denyWarnings => some { r with denyWarnings := true }
  | verbose => some { r with verbose := true }
  | help => some r

end Flag

/-- Why arguments make no request. -/
inductive Stop
  /-- they ask for help -/
  | help
  /-- they ask for the version -/
  | version
  /-- they are wrong -/
  | usage
  deriving Repr, DecidableEq

/-- A request so far, and the options that have been given. -/
structure Reading where
  request : Request
  given : List Flag
  deriving Repr, DecidableEq

namespace Reading

/-- Takes an option with its value, which is empty if it has none. -/
def take (o : Flag) (value : Text) (r : Reading) : Except Stop Reading :=
  if o == .help then .error .help
  else if r.given.contains o then .error .usage
  else
    match o.set? value r.request with
    | some request => .ok ⟨request, o :: r.given⟩
    | none => .error .usage

def input (path : Text) (r : Reading) : Except Stop Reading :=
  if path.isEmpty then .error .usage
  else .ok { r with request := { r.request with inputs := r.request.inputs ++ [path] } }

/-- Reads options that share a hyphen. The last one may still want its value. -/
def shorts : Text → Reading → Except Stop (Reading × Option Flag)
  | [], r => .ok (r, none)
  | c :: rest, r =>
    match (Flag.ofVerb r.request.verb).find? fun o => o.short? == some c with
    | none => .error .usage
    | some o =>
      if o.takesValue then
        match rest with
        | [] => .ok (r, some o)
        | _ => (r.take o ((dropPrefix? ['='] rest).getD rest)).map fun r => (r, none)
      else
        match r.take o [] with
        | .ok r => shorts rest r
        | .error e => .error e

/-- Reads an option after two hyphens. It may still want its value. -/
def long (s : Text) (r : Reading) : Except Stop (Reading × Option Flag) :=
  let (name, value) := match cutWhere? (· == '=') s with
    | some (name, value) => (name, some value)
    | none => (s, none)
  match (Flag.ofVerb r.request.verb).find? fun o => o.long.toList == name, value with
  | some o, some v => if o.takesValue then (r.take o v).map fun r => (r, none) else .error .usage
  | some o, none => if o.takesValue then .ok (r, some o) else (r.take o []).map fun r => (r, none)
  | none, _ => .error .usage

/-- Whether an argument is no value: two hyphens, or options. -/
def startsOption (arg : Text) : Bool := arg.head? == some '-' && arg != ['-']

/-- Reads the arguments after the verb. -/
def arguments : List Text → Reading → Except Stop Reading
  | [], r => .ok r
  | arg :: rest, r =>
    if arg == ['-', '-'] then rest.foldlM (fun r path => r.input path) r
    else if startsOption arg then
      let found := match dropPrefix? ['-', '-'] arg with
        | some s => r.long s
        | none => r.shorts (arg.drop 1)
      match found with
      | .error e => .error e
      | .ok (r, none) => arguments rest r
      | .ok (r, some o) =>
        match rest with
        | [] => .error .usage
        | value :: rest =>
          if startsOption value then .error .usage
          else
            match r.take o value with
            | .ok r => arguments rest r
            | .error e => .error e
    else
      match r.input arg with
      | .ok r => arguments rest r
      | .error e => .error e

end Reading

namespace Request

/-- The request of a verb with some arguments. There has to be an input. -/
def ofVerb (verb : Verb) (args : List Text) : Except Stop Request :=
  match Reading.arguments args ⟨plain verb, []⟩ with
  | .ok r => if r.request.inputs.isEmpty then .error .usage else .ok r.request
  | .error e => .error e

/-- What the verb `help` comes to: help on a verb, or on none. -/
def ofHelp : List Text → Stop
  | [] => .help
  | [topic] => if ("help" :: Verb.all.map Verb.name).contains (String.ofList topic) then .help else .usage
  | _ => .usage

/-- The request that some arguments make. -/
def ofArguments : List Text → Except Stop Request
  | [] => .error .usage
  | arg :: args =>
    match Verb.all.find? fun v => v.name.toList == arg with
    | some verb => ofVerb verb args
    | none =>
      if arg == "help".toList then .error (ofHelp args)
      else if arg == "--help".toList || arg.take 2 == "-h".toList then .error .help
      else if arg == "--version".toList || arg.take 2 == "-V".toList then .error .version
      else .error .usage

end Request
end QuartoPretext
