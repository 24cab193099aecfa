/-
# Div fences

A line of three colons or more closes a div, and opens one if a label
follows: an attribute block, or a class name with an optional attribute block.

Key definitions: `DivFence`, `DivFence.parse?`.
-/
import QuartoPretext.Attributes.Trailing

namespace QuartoPretext

/-- A line that opens or closes a div. -/
inductive DivFence
  | opening (colons : Nat) (label : Text) (attrs : Attributes)
  | closing (colons : Nat)
  deriving Repr, DecidableEq

namespace DivFence

open Text

/-- A class name is made of letters, numbers, hyphens and low lines. -/
def isClassName (name : Text) : Bool :=
  !name.isEmpty && name.all fun c => isAlphanumeric c || c == '-' || c == '_'

/-- The attributes after a bare class name: a block or nothing. -/
def afterName? (rest : Text) : Option Attributes :=
  match Attributes.splitTrailing? rest with
  | some ([], inner) => some (Attributes.parse inner)
  | some _ => none
  | none => if isBlank rest then some Attributes.none else none

/-- The attributes that a trimmed label gives a div. -/
def labelAttributes? (label : Text) : Option Attributes :=
  match between? ['\x7b'] ['\x7d'] label with
  | some inner => some (Attributes.parse inner)
  | none =>
    let name := label.takeWhile (!isSpace ·)
    if isClassName name then
      (afterName? (label.dropWhile (!isSpace ·))).map fun as =>
        { as with classes := name :: as.classes }
    else none

/-- Reads a line as a div fence. -/
def parse? (line : Text) : Option DivFence :=
  let s := trim line
  let colons := (s.takeWhile (· == ':')).length
  let label := trim (s.dropWhile (· == ':'))
  if colons < 3 then none
  else if label.isEmpty then some (closing colons)
  else (labelAttributes? label).map (opening colons label)

def isOpening : DivFence → Bool
  | opening .. => true
  | closing .. => false

end DivFence
end QuartoPretext
