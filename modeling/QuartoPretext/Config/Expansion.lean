/-
# Variables in settings

A setting in which `${` occurs may refer to variables of the environment, as
`${NAME}`, `${NAME:-default}` or `$NAME`; two dollar signs stand for one.

Key definitions: `Reference`, `references`, `expandText`, `Config.expand`,
`Config.variableNames`.
-/
import QuartoPretext.Config.Basic
import QuartoPretext.Config.Fault
import QuartoPretext.Text.Scan

namespace QuartoPretext.Config

open Text

/-- The values of variables. -/
abbrev Environment := Text → Option Text

inductive Reference
  | char (c : Char)
  | named (name : Text) (default? : Option Text)
  deriving Repr, DecidableEq

namespace Reference

/-- A character of a variable's name where the name stands without braces. -/
def isName (c : Char) : Bool := isAlphanumeric c || c == '_'

/-- The reference between two braces. A default follows `:-`, which does not come
first. -/
def ofBraced (inner : Text) : Reference :=
  match cut? [':', '-'] inner with
  | some (c :: name, default) => .named (c :: name) (some default)
  | _ => .named inner none

/-- What a dollar sign starts, and what follows it. -/
def ofDollar? (s : Text) : Option (List Reference × Text) :=
  match s with
  | '$' :: '\x7b' :: rest => (cutWhere? (· == '\x7d') rest).map fun (inner, after) => ([ofBraced inner], after)
  | '$' :: '$' :: rest => some ([.char '$'], rest)
  | '$' :: rest =>
    let name := rest.takeWhile isName
    if name.isEmpty then none else some ([.named name none], rest.drop name.length)
  | _ => none

/-- What a reference stands for, or the name that has no value. -/
def value (env : Environment) : Reference → Except Text Text
  | char c => .ok [c]
  | named name default? =>
    match (env name).or default? with
    | some v => .ok v
    | none => .error name

end Reference

/-- Whether a text refers to variables. -/
def hasReference (s : Text) : Bool := (cut? ['$', '\x7b'] s).isSome

/-- The characters and the references that a text is made of. -/
def references (s : Text) : List Reference :=
  if hasReference s then scan .char Reference.ofDollar? s else s.map .char

/-- Replaces the references in a text. -/
def expandText (env : Environment) (s : Text) : Except Text Text :=
  ((references s).mapM (Reference.value env)).map List.flatten

/-- Replaces the references in a setting. -/
def expandSetting (env : Environment) (setting : String) (s : Text) : Except ConfigFault Text :=
  (expandText env s).mapError (.unset setting.toList)

/-- The variables that the settings refer to. -/
def variableNames (c : Config) : List Text :=
  let texts := [c.imageDir, c.figureWidth] ++ c.chapterIds.toList ++ c.exercisesIds.toList
  (texts.flatMap references).filterMap fun r =>
    match r with
    | .named name _ => some name
    | .char _ => none

/-- Replaces the references in all settings that may have them. -/
def expand (env : Environment) (c : Config) : Except ConfigFault Config := do
  return { c with
    imageDir := ← expandSetting env "output.image_dir" c.imageDir
    figureWidth := ← expandSetting env "output.figure_width" c.figureWidth
    chapterIds := ← c.chapterIds.mapM (expandSetting env "chapter.id_prefix")
    exercisesIds := ← c.exercisesIds.mapM (expandSetting env "exercises.id_prefix") }

end QuartoPretext.Config
