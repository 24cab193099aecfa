/-
# What is wrong with settings

Key definitions: `Config.Problem`, `ConfigFault`, `ConfigFault.message`.
-/
import QuartoPretext.Files.Fault

namespace QuartoPretext

/-- A value that a setting cannot have. -/
inductive Config.Problem
  /-- a setting, or an entry of one, that is nothing but white space -/
  | blank (setting : Text)
  | percentage (setting value : Text)
  | noXrefPrefix
  | xrefPrefix (value : Text)
  deriving Repr, DecidableEq

def Config.Problem.message : Config.Problem → Text
  | blank setting => setting ++ " cannot be empty".toList
  | percentage setting value =>
    setting ++ " must be a percentage between 1% and 100%, got \"".toList ++ value ++ ['"']
  | noXrefPrefix => "xref.prefixes needs at least one prefix".toList
  | xrefPrefix value =>
    "xref.prefixes entry \"".toList ++ value ++ "\" must be alphanumeric".toList

/-- Why settings cannot be loaded. -/
inductive ConfigFault
  | notFound (path : Text)
  | unreadable (fault : FileFault)
  /-- no TOML, or values of the wrong type -/
  | malformed
  | invalid (problem : Config.Problem)
  /-- a variable without a value in a setting -/
  | unset (setting name : Text)
  deriving Repr, DecidableEq

def ConfigFault.message : ConfigFault → Text
  | notFound path => "Configuration file not found: ".toList ++ path
  | unreadable fault => "I/O error: ".toList ++ fault.message
  | malformed => "TOML parse error: not a valid settings file".toList
  | invalid problem => "Configuration error: ".toList ++ problem.message
  | unset setting name =>
    "Environment variable error in ".toList ++ setting ++ ": $\x7b".toList ++ name ++
      "\x7d not set".toList

end QuartoPretext
