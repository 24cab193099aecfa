/-
# Character classes

Every class is Unicode's unless its name says ASCII. An ASCII character is
decided without the range tables, so the tables are met only beyond it.

Key definitions: `isSpace`, `isDigit`, `isAlphanumeric`, `isWord`,
`isAsciiSpace`, `isAsciiPunctuation`.
-/
import QuartoPretext.Text.Ranges

namespace QuartoPretext.Text

/-- The characters with the property White_Space. -/
def isSpace (c : Char) : Bool :=
  c == ' ' || (9 ≤ c.toNat && c.toNat ≤ 13) ||
    (127 < c.toNat && (c.toNat == 0x85 || c.toNat == 0xa0 || c.toNat == 0x1680 ||
      (0x2000 ≤ c.toNat && c.toNat ≤ 0x200a) || c.toNat == 0x2028 || c.toNat == 0x2029 ||
      c.toNat == 0x202f || c.toNat == 0x205f || c.toNat == 0x3000))

/-- A decimal digit of any script. -/
def isDigit (c : Char) : Bool :=
  if c.toNat < 128 then c.isDigit else inRanges decimalDigitRanges c.toNat

/-- A letter or a number of any kind. -/
def isAlphanumeric (c : Char) : Bool :=
  if c.toNat < 128 then c.isAlphanum
  else inRanges alphabeticRanges c.toNat || inRanges decimalDigitRanges c.toNat ||
    inRanges otherNumberRanges c.toNat

/-- A character of a word: a letter, a mark, a digit, connecting punctuation or
one of the two zero-width joiners. -/
def isWord (c : Char) : Bool :=
  if c.toNat < 128 then c.isAlphanum || c == '_'
  else inRanges alphabeticRanges c.toNat || inRanges markRanges c.toNat ||
    inRanges decimalDigitRanges c.toNat || inRanges connectorRanges c.toNat ||
    c.toNat == 0x200c || c.toNat == 0x200d

/-- The ASCII spaces: space, tab, line feed, form feed, carriage return. -/
def isAsciiSpace (c : Char) : Bool :=
  c == ' ' || c == '\t' || c == '\n' || c == '\x0c' || c == '\r'

/-- The printing ASCII characters that are neither letter nor digit. -/
def isAsciiPunctuation (c : Char) : Bool :=
  33 ≤ c.toNat && c.toNat ≤ 126 && !c.isAlphanum

/-- A space or a tab. -/
def isTabOrSpace (c : Char) : Bool := c == ' ' || c == '\t'

end QuartoPretext.Text
