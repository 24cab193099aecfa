/-
# Numbers, truth values and dates

A value without quotes or brackets is a word. The word is a truth value, a
number or a date, a time or both; any other word is refused.

Key definitions: `integer?`, `float?`, `isDateTime`, `scalar?`.
-/
import QuartoPretext.Toml.Value

namespace QuartoPretext.Toml

open Text

/-- The digits of a numeral in which single underscores may stand between digits. -/
def digits? (p : Char → Bool) (s : Text) : Option Text :=
  let groups := pieces (· == '_') s
  if groups.all fun g => !g.isEmpty && g.all p then some groups.flatten else none

/-- The digits of a numeral that starts with zero only if it is zero. -/
def decimal? (s : Text) : Option Text :=
  (digits? Char.isDigit s).filter fun ds => ds.length == 1 || ds.head? != some '0'

/-- A numeral without its sign, and whether the sign is a minus. -/
def unsigned (s : Text) : Bool × Text :=
  match s with
  | '-' :: rest => (true, rest)
  | '+' :: rest => (false, rest)
  | _ => (false, s)

/-- The value of an ASCII letter or digit as a digit. -/
def digitValue (c : Char) : Nat :=
  if c.isDigit then c.toNat - '0'.toNat else c.toLower.toNat - 'a'.toNat + 10

/-- The digits of a base up to sixteen. -/
def isDigitOf (base : Nat) (c : Char) : Bool := c.isAlphanum && digitValue c < base

def valueIn (base : Nat) (ds : Text) : Nat := ds.foldl (fun n c => base * n + digitValue c) 0

/-- A whole number. Only decimal ones have a sign. -/
def integer? (s : Text) : Option Int :=
  let inBase (base : Nat) (rest : Text) : Option Int :=
    (digits? (isDigitOf base) rest).map fun ds => (valueIn base ds : Int)
  match s with
  | '0' :: 'x' :: rest => inBase 16 rest
  | '0' :: 'o' :: rest => inBase 8 rest
  | '0' :: 'b' :: rest => inBase 2 rest
  | _ =>
    let (negative, rest) := unsigned s
    (decimal? rest).map fun ds => if negative then -(valueIn 10 ds : Int) else valueIn 10 ds

/-- Whole numbers are in range if 128 bits hold them, with sign or without. -/
def integerInRange (n : Int) : Bool := -(Nat.pow 2 127 : Nat) ≤ n && n < (Nat.pow 2 128 : Nat)

/-- The numbers from this one on are nearest to infinity in double precision. -/
def floatBound : Nat := Nat.pow 2 1024 - Nat.pow 2 970

/-- Whether `mantissa * 10 ^ exponent` is below the bound. Far from it the
number of digits decides. -/
def floatInRange (mantissa : Nat) (exponent : Int) : Bool :=
  let size := (ofNat mantissa).length + exponent
  if mantissa == 0 || size < 300 then true
  else if 320 < size then false
  else if 0 ≤ exponent then mantissa * Nat.pow 10 exponent.toNat < floatBound
  else mantissa < floatBound * Nat.pow 10 (-exponent).toNat

/-- The exponent of a number with a point or an exponent. -/
def exponent? (s : Text) : Option Int :=
  let (negative, rest) := unsigned s
  (digits? Char.isDigit rest).map fun ds => if negative then -(valueIn 10 ds : Int) else valueIn 10 ds

/-- Whether a number with a point or an exponent is in range. -/
def float? (s : Text) : Option Bool :=
  let rest := (unsigned s).2
  if rest == "inf".toList || rest == "nan".toList then some true
  else
    let (mantissa, power) := match cutWhere? (fun c => c == 'e' || c == 'E') rest with
      | some (m, e) => (m, some e)
      | none => (rest, none)
    let (whole, fraction) := match cutWhere? (· == '.') mantissa with
      | some (w, f) => (w, some f)
      | none => (mantissa, none)
    if power.isNone && fraction.isNone then none
    else
      match decimal? whole, fraction.mapM (digits? Char.isDigit), power.mapM exponent? with
      | some w, some f, some e =>
        let f := f.getD []
        some (floatInRange (valueIn 10 (w ++ f)) (e.getD 0 - f.length))
      | _, _, _ => none

/-- The number that a given count of ASCII digits writes. -/
def fixed? (count : Nat) (s : Text) : Option Nat :=
  if s.length == count then toNat? s else none

/-- How many days a month has. -/
def daysIn (year month : Nat) : Nat :=
  if month == 2 then
    if year % 4 == 0 && (year % 100 != 0 || year % 400 == 0) then 29 else 28
  else if [4, 6, 9, 11].contains month then 30 else 31

/-- A date of the calendar, as in `1979-05-27`. -/
def isDate (s : Text) : Bool :=
  match pieces (· == '-') s with
  | [y, m, d] =>
    match fixed? 4 y, fixed? 2 m, fixed? 2 d with
    | some y, some m, some d => 1 ≤ m && m ≤ 12 && 1 ≤ d && d ≤ daysIn y m
    | _, _, _ => false
  | _ => false

/-- Hours and minutes of a clock. -/
def isClock (h m : Text) : Bool :=
  (fixed? 2 h).any (· ≤ 23) && (fixed? 2 m).any (· ≤ 59)

/-- Seconds, with or without a fraction; there are leap seconds. -/
def isSeconds (s : Text) : Bool :=
  match cutWhere? (· == '.') s with
  | some (whole, fraction) =>
    (fixed? 2 whole).any (· ≤ 60) && !fraction.isEmpty && fraction.all Char.isDigit
  | none => (fixed? 2 s).any (· ≤ 60)

/-- A time of the day, as in `07:32` or `07:32:00.5`. -/
def isTime (s : Text) : Bool :=
  match pieces (· == ':') s with
  | [h, m] => isClock h m
  | [h, m, secs] => isClock h m && isSeconds secs
  | _ => false

/-- A time zone, as in `Z` or `-07:00`. -/
def isOffset (s : Text) : Bool :=
  match s with
  | [z] => z == 'Z' || z == 'z'
  | sign :: rest =>
    (sign == '+' || sign == '-') &&
      match pieces (· == ':') rest with
      | [h, m] => isClock h m
      | _ => false
  | [] => false

/-- A time with a time zone. -/
def isZonedTime (s : Text) : Bool :=
  let time := s.takeWhile fun c => c.isDigit || c == ':' || c == '.'
  isTime time && isOffset (s.drop time.length)

/-- A date, a time, or a date and a time, which may then have a time zone. -/
def isDateTime (s : Text) : Bool :=
  isDate s || isTime s ||
    match s.drop 10 with
    | mark :: rest =>
      isDate (s.take 10) && (mark == 'T' || mark == 't' || mark == ' ') &&
        (isTime rest || isZonedTime rest)
    | [] => false

/-- The value of a word. -/
def ofWord? (s : Text) : Option Value :=
  if s == "true".toList || s == "false".toList then some .boolean
  else
    match integer? s, float? s with
    | some n, _ => some (.number (integerInRange n))
    | none, some inRange => some (.number inRange)
    | none, none => if isDateTime s then some .dateTime else none

/-- The characters that end a word. -/
def endsWord (c : Char) : Bool :=
  c == ' ' || c == '\t' || c == '\n' || c == '\r' || c == '#' || c == ',' || c == '=' ||
    c == '[' || c == ']' || c == '\x7b' || c == '\x7d'

/-- The value of the word at the start of a text, and what follows it. A single
space may stand between a date and a time. -/
def scalar? (s : Text) : Option (Value × Text) :=
  let word := s.takeWhile (!endsWord ·)
  let rest := s.drop word.length
  let further := match rest with
    | ' ' :: c :: more =>
      if isDate word && c.isDigit then ' ' :: (c :: more).takeWhile (!endsWord ·) else []
    | _ => []
  (ofWord? (word ++ further)).map fun v => (v, rest.drop further.length)

end QuartoPretext.Toml
