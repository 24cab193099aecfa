/-
# Valid settings

Key definitions: `percentage?`, `Config.problem?`, `Config.validate`.
-/
import QuartoPretext.Config.Basic
import QuartoPretext.Config.Fault

namespace QuartoPretext.Config

open Text

/-- The number before a percent sign, at most 100 and not zero. It may have a plus
sign. -/
def percentage? (s : Text) : Option Nat :=
  match dropSuffix? ['%'] s with
  | some numeral =>
    (toNat? ((dropPrefix? ['+'] numeral).getD numeral)).filter fun n => 1 ≤ n && n ≤ 100
  | none => none

def blank? (setting : String) (s : Text) : Option Problem :=
  if isBlank s then some (.blank setting.toList) else none

def notPercentage? (setting : String) (s : Text) : Option Problem :=
  if (percentage? s).isNone then some (.percentage setting.toList s) else none

/-- What is wrong with the beginning of a cross-reference. -/
def xrefPrefixProblem? (s : Text) : Option Problem :=
  (blank? "xref.prefixes entry" s).or (if s.all Char.isAlphanum then none else some (.xrefPrefix s))

/-- The first problem of some settings. -/
def problem? (c : Config) : Option Problem :=
  (blank? "output.image_dir" c.imageDir).or <|
  (notPercentage? "output.figure_width" c.figureWidth).or <|
  (c.chapterIds.bind (blank? "chapter.id_prefix")).or <|
  (c.exercisesIds.bind (blank? "exercises.id_prefix")).or <|
  (c.skipDivs.findSome? (blank? "divs.skip entry")).or <|
  (if c.xrefPrefixes.isEmpty then some .noXrefPrefix else none).or <|
  c.xrefPrefixes.findSome? xrefPrefixProblem?

/-- The settings, if they are valid. -/
def validate (c : Config) : Except ConfigFault Config :=
  match c.problem? with
  | some p => .error (.invalid p)
  | none => .ok c

end QuartoPretext.Config
