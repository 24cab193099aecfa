/-
# TOML values

A value keeps what a reader of settings asks for: texts, lists and tables. Of
numbers only their range matters, and of dates nothing. A table knows how it
came about, since that decides what may still be added to it.

Key definitions: `Value`, `Origin`, `Value.isReadable`.
-/
import QuartoPretext.Text.Basic

namespace QuartoPretext.Toml

/-- How a table came about. -/
inductive Origin
  /-- by a header of its own, or as the whole document -/
  | header
  /-- as the beginning of a longer header -/
  | implied
  /-- as the beginning of a dotted key -/
  | dotted
  /-- between braces -/
  | inline
  deriving Repr, DecidableEq

inductive Value
  | string (text : Text)
  /-- a number, and whether it is in the range of numbers -/
  | number (inRange : Bool)
  | boolean
  | dateTime
  /-- a list, and whether headers in double brackets made it -/
  | array (ofHeaders : Bool) (elements : List Value)
  | table (origin : Origin) (entries : List (Text × Value))
  deriving Repr

/-- The entries of a table, by key. -/
abbrev Entries := List (Text × Value)

namespace Value

mutual

/-- Whether all numbers in a value are in range. -/
def isReadable : Value → Bool
  | number inRange => inRange
  | array _ elements => areReadable elements
  | table _ entries => haveReadable entries
  | string _ | boolean | dateTime => true

def areReadable : List Value → Bool
  | [] => true
  | v :: rest => v.isReadable && areReadable rest

def haveReadable : List (Text × Value) → Bool
  | [] => true
  | (_, v) :: rest => v.isReadable && haveReadable rest

end

end Value
end QuartoPretext.Toml
