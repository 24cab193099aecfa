/-
# Places in a YAML text

A place is the text that is left, with the line, the column and the number of
characters before it.

Key definitions: `Place`, `Place.skip`, `Place.skipBreak`, `Place.readBreak`,
`Place.gap`, `Gap.fold`.
-/
import QuartoPretext.Text.Basic

namespace QuartoPretext.Yaml

structure Place where
  rest : Text
  line : Nat
  column : Nat
  index : Nat
  deriving Repr, DecidableEq

/-- The line breaks: line feed, carriage return, next line, line and paragraph
separator. -/
def isBreak (c : Char) : Bool :=
  c == '\n' || c == '\r' || c.toNat == 0x85 || c.toNat == 0x2028 || c.toNat == 0x2029

def isBlank (c : Char) : Bool := c == ' ' || c == '\t'

def isBlankOrBreak (c : Char) : Bool := isBlank c || isBreak c

/-- The characters that a YAML text is made of. -/
def isPrintable (c : Char) : Bool :=
  let n := c.toNat
  n == 9 || n == 10 || n == 13 || (0x20 ≤ n && n ≤ 0x7e) || n == 0x85 || (0xa0 ≤ n && n ≤ 0xfffd) ||
    0x10000 ≤ n

namespace Place

def start (s : Text) : Place := ⟨s, 0, 0, 0⟩

/-- The character `n` places further on. -/
def look (p : Place) (n : Nat) : Option Char := p.rest[n]?

/-- Whether the character `n` places further on is `c`. -/
def has (p : Place) (n : Nat) (c : Char) : Bool := p.look n == some c

/-- Whether a blank, a line break or the end stands `n` places further on. -/
def endsWord (p : Place) (n : Nat) : Bool := (p.look n).all isBlankOrBreak

/-- Whether a line break or the end stands here. -/
def atLineEnd (p : Place) : Bool := (p.look 0).all isBreak

/-- Passes `n` characters of a line. -/
def skip (p : Place) (n : Nat) : Place :=
  { p with rest := p.rest.drop n, column := p.column + n, index := p.index + n }

/-- Passes the characters of a class, which holds no line break. -/
def skipWhile (p : Place) (q : Char → Bool) : Place := p.skip (p.rest.takeWhile q).length

/-- The characters of a class from here on, and the place after them. -/
def takeWhile (p : Place) (q : Char → Bool) : Text × Place :=
  (p.rest.takeWhile q, p.skip (p.rest.takeWhile q).length)

/-- Passes the rest of a line. -/
def skipLine (p : Place) : Place := p.skipWhile (!isBreak ·)

/-- The characters of the line break that stands here. -/
def breakLength (p : Place) : Nat :=
  match p.rest with
  | '\r' :: '\n' :: _ => 2
  | c :: _ => if isBreak c then 1 else 0
  | [] => 0

/-- Passes a line break. -/
def skipBreak (p : Place) : Place :=
  if p.breakLength = 0 then p
  else ⟨p.rest.drop p.breakLength, p.line + 1, 0, p.index + p.breakLength⟩

/-- The text that a line break stands for: a line feed, or itself where it
separates lines or paragraphs. -/
def breakText (p : Place) : Text :=
  match p.rest with
  | c :: _ =>
    if c.toNat == 0x2028 || c.toNat == 0x2029 then [c] else if isBreak c then ['\n'] else []
  | [] => []

/-- Whether a mark of three characters that starts or ends a document stands here. -/
def atDocumentMark (p : Place) : Bool :=
  p.column == 0 && (p.rest.take 3 == ['-', '-', '-'] || p.rest.take 3 == ['.', '.', '.']) &&
    p.endsWord 3

end Place

/-- The blanks and line breaks between two stretches of a scalar. -/
structure Gap where
  /-- the blanks before the first line break -/
  blanks : Text
  /-- whether there is a line break -/
  crossed : Bool
  firstBreak : Text
  moreBreaks : Text
  deriving Repr, DecidableEq

namespace Gap

def none : Gap := ⟨[], false, [], []⟩

/-- The text of a gap. A single line break becomes a space, and further ones
stand for themselves. -/
def fold (g : Gap) : Text :=
  if !g.crossed then g.blanks
  else if g.firstBreak != ['\n'] then g.firstBreak ++ g.moreBreaks
  else if g.moreBreaks.isEmpty then [' ']
  else g.moreBreaks

/-- Adds a line break. -/
def cross (g : Gap) (text : Text) : Gap :=
  if g.crossed then { g with moreBreaks := g.moreBreaks ++ text }
  else { g with blanks := [], crossed := true, firstBreak := text }

end Gap

/-- Reads a gap. A tab may not stand within the first `indent` columns of a
line; `fuel` bounds the characters. -/
def Place.gap (indent : Nat) : Nat → Gap → Place → Option (Gap × Place)
  | 0, g, p => some (g, p)
  | fuel + 1, g, p =>
    match p.look 0 with
    | some c =>
      if isBlank c then
        if g.crossed && p.column < indent && c == '\t' then Option.none
        else gap indent fuel (if g.crossed then g else { g with blanks := g.blanks ++ [c] }) (p.skip 1)
      else if isBreak c then gap indent fuel (g.cross p.breakText) p.skipBreak
      else some (g, p)
    | Option.none => some (g, p)

end QuartoPretext.Yaml
