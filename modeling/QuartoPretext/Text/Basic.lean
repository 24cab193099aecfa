/-
# Text as a list of characters

A source text is the list of its characters. The functions here trim it, cut
it at a mark, split it into pieces and write numbers; none of them looks at
anything but the characters.

Key definitions: `Text`, `trim`, `cut?`, `cutWhere?`, `pieces`, `words`,
`lines`, `ofNat`, `utf8Length`.
-/
import QuartoPretext.Text.Class

namespace QuartoPretext

abbrev Text := List Char

namespace Text

/-- The text without the white space it starts with. -/
def trimStart (s : Text) : Text := s.dropWhile isSpace

/-- The text without the white space it ends with. -/
def trimEnd (s : Text) : Text := (s.reverse.dropWhile isSpace).reverse

/-- The text without the white space around it. -/
def trim (s : Text) : Text := trimEnd (trimStart s)

/-- Nothing but white space. -/
def isBlank (s : Text) : Bool := s.all isSpace

/-- What follows a given beginning. -/
def dropPrefix? : Text → Text → Option Text
  | [], s => some s
  | _ :: _, [] => none
  | c :: mark, d :: s => if c == d then dropPrefix? mark s else none

/-- What precedes a given end. -/
def dropSuffix? (mark s : Text) : Option Text :=
  (dropPrefix? mark.reverse s.reverse).map List.reverse

/-- What stands between a given beginning and a given end. -/
def between? (first last s : Text) : Option Text :=
  (dropPrefix? first s).bind (dropSuffix? last)

/-- What precedes and what follows the first place where `mark` stands. -/
def cut? (mark : Text) : Text → Option (Text × Text)
  | [] => if mark.isEmpty then some ([], []) else none
  | c :: s =>
    match dropPrefix? mark (c :: s) with
    | some rest => some ([], rest)
    | none => (cut? mark s).map fun (before, after) => (c :: before, after)

/-- What precedes and what follows the first character of a class. -/
def cutWhere? (p : Char → Bool) : Text → Option (Text × Text)
  | [] => none
  | c :: s => if p c then some ([], s) else (cutWhere? p s).map fun (a, b) => (c :: a, b)

/-- The stretches between the characters of a class, empty ones included. -/
def pieces (p : Char → Bool) : Text → List Text
  | [] => [[]]
  | c :: s =>
    if p c then [] :: pieces p s
    else
      match pieces p s with
      | piece :: more => (c :: piece) :: more
      | [] => [[c]]

/-- The longest stretches without white space, in order. -/
def words (s : Text) : List Text := (pieces isSpace s).filter fun w => !w.isEmpty

/-- The texts one after the other with `sep` between neighbours. -/
def joinWith (sep : Text) (parts : List Text) : Text := List.intercalate sep parts

/-- Drops a carriage return from the end. -/
def dropReturn (s : Text) : Text := (dropSuffix? ['\r'] s).getD s

/-- The lines of a file: each ends at a line feed, and a carriage return just
before it belongs to the line end. A line feed that ends the file starts no
further line. -/
def lines (s : Text) : List Text :=
  let all := pieces (· == '\n') s
  let last := all.getLastD []
  all.dropLast.map dropReturn ++ (if last.isEmpty then [] else [last])

/-- The decimal numeral of a number. -/
def ofNat (n : Nat) : Text := Nat.toDigits 10 n

/-- The value of a text of ASCII digits. -/
def digitsValue (s : Text) : Nat := s.foldl (fun n c => 10 * n + (c.toNat - '0'.toNat)) 0

/-- The number that a non-empty text of ASCII digits writes. -/
def toNat? (s : Text) : Option Nat :=
  if !s.isEmpty && s.all Char.isDigit then some (digitsValue s) else none

/-- Every `c` of a class replaced by a text. -/
def replaceChar (c : Char) (by' : Text) (s : Text) : Text :=
  s.flatMap fun d => if d == c then by' else [d]

/-- How many bytes the text takes in UTF-8. -/
def utf8Length (s : Text) : Nat := s.foldr (fun c n => c.utf8Size + n) 0

/-- Upper case ASCII letters in lower case. -/
def lowerAscii (s : Text) : Text := s.map Char.toLower

end Text
end QuartoPretext
