/-
# Named choices

A setting that takes one of a few values, each with a name. A name is read
without regard to ASCII case and to white space around it.

Key definitions: `Policy`, `Policy.parse?`, `Policy.unknown`.
-/
import QuartoPretext.Text.Basic

namespace QuartoPretext

class Policy (α : Type) where
  /-- what the setting is called in messages -/
  what : String
  all : List α
  name : α → String

namespace Policy

variable {α : Type} [Policy α]

/-- The value with a name written exactly. -/
def ofName? (s : Text) : Option α := all.find? fun a => (name a).toList == s

/-- The value that a text names. -/
def parse? (s : Text) : Option α := ofName? (Text.lowerAscii (Text.trim s))

/-- The message for a text that names no value. -/
def unknown (α : Type) [Policy α] (s : Text) : Text :=
  "unknown ".toList ++ (what α).toList ++ " `".toList ++ s ++ "` (expected one of: ".toList ++
    Text.joinWith [' '] ((all (α := α)).map fun a => (name a).toList) ++ ")".toList

end Policy
end QuartoPretext
