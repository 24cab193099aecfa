/-
# Quoted texts

A text in double quotes may hold escapes, one in single quotes stands for
itself. Three quotes open a text of several lines; up to two quotes just before
the closing three belong to it.

Key definitions: `escape?`, `basic?`, `literal?`, `quoted?`.
-/
import QuartoPretext.Toml.Value

namespace QuartoPretext.Toml

open Text

/-- The characters that stand neither in comments nor in quotes: the ASCII
control characters but for the tab. -/
def isControl (c : Char) : Bool := (c.toNat < 32 && c != '\t') || c.toNat == 127

/-- What follows a line end. -/
def afterBreak? (s : Text) : Option Text :=
  match s with
  | '\n' :: rest => some rest
  | '\r' :: '\n' :: rest => some rest
  | _ => none

/-- The character that some hexadecimal digits number. -/
def ofHex? (s : Text) : Option Char :=
  if s.all fun c => c.isDigit || ('a' ≤ c && c ≤ 'f') || ('A' ≤ c && c ≤ 'F') then
    let n := s.foldl (fun n c =>
      16 * n + if c.isDigit then c.toNat - '0'.toNat else c.toLower.toNat - 'a'.toNat + 10) 0
    if h : n.isValidChar then some (Char.ofNatAux n h) else none
  else none

/-- The character of an escape, read after the backslash, and what follows it. -/
def escape? (s : Text) : Option (Char × Text) :=
  let numbered (count : Nat) (rest : Text) : Option (Char × Text) :=
    if rest.length < count then none
    else (ofHex? (rest.take count)).map fun c => (c, rest.drop count)
  match s with
  | 'b' :: rest => some ('\x08', rest)
  | 't' :: rest => some ('\t', rest)
  | 'n' :: rest => some ('\n', rest)
  | 'f' :: rest => some ('\x0c', rest)
  | 'r' :: rest => some ('\r', rest)
  | 'e' :: rest => some ('\x1b', rest)
  | '"' :: rest => some ('"', rest)
  | '\\' :: rest => some ('\\', rest)
  | 'x' :: rest => numbered 2 rest
  | 'u' :: rest => numbered 4 rest
  | 'U' :: rest => numbered 8 rest
  | _ => none

/-- A text up to its closing quote, and what follows the quote. `step` reads one
character or escape, and `fuel` bounds how many. -/
def upTo (quote : Char) (step : Text → Option (Text × Text)) : Nat → Text → Option (Text × Text)
  | 0, _ => none
  | fuel + 1, s =>
    if s.head? == some quote then some ([], s.tail)
    else
      (step s).bind fun (t, rest) =>
        (upTo quote step fuel rest).map fun (more, after) => (t ++ more, after)

/-- A text of several lines up to its closing quotes, and what follows them. -/
def upToThree (quote : Char) (step : Text → Option (Text × Text)) : Nat → Text → Option (Text × Text)
  | 0, _ => none
  | fuel + 1, s =>
    let run := (s.takeWhile (· == quote)).length
    if 3 ≤ run then
      let own := min (run - 3) 2
      some (s.take own, s.drop (own + 3))
    else
      (step s).bind fun (t, rest) =>
        (upToThree quote step fuel rest).map fun (more, after) => (t ++ more, after)

/-- A character that stands for itself. -/
def plainStep (s : Text) : Option (Text × Text) :=
  match s with
  | c :: rest => if isControl c then none else some ([c], rest)
  | [] => none

/-- A character that stands for itself where lines may end. -/
def lineStep (s : Text) : Option (Text × Text) :=
  match afterBreak? s with
  | some rest => some (s.take (s.length - rest.length), rest)
  | none => plainStep s

/-- A character or an escape. -/
def escapedStep (s : Text) : Option (Text × Text) :=
  match s with
  | '\\' :: rest => (escape? rest).map fun (c, after) => ([c], after)
  | _ => plainStep s

/-- A character or an escape where lines may end. A backslash that ends its line
takes away all white space after it. -/
def escapedLineStep (s : Text) : Option (Text × Text) :=
  match s with
  | '\\' :: rest =>
    match afterBreak? (rest.dropWhile isTabOrSpace) with
    | some after => some ([], skipGap after.length after)
    | none => escapedStep s
  | _ => lineStep s
where
  skipGap : Nat → Text → Text
    | 0, s => s
    | fuel + 1, s =>
      match afterBreak? (s.dropWhile isTabOrSpace) with
      | some after => skipGap fuel after
      | none => s.dropWhile isTabOrSpace

/-- A text without the line end that it starts with. -/
def dropFirstBreak (s : Text) : Text := (afterBreak? s).getD s

/-- A text on one line after its opening quote. -/
def basic? (s : Text) : Option (Text × Text) := upTo '"' escapedStep (s.length + 1) s

def literal? (s : Text) : Option (Text × Text) := upTo '\'' plainStep (s.length + 1) s

/-- A quoted text, which may have several lines, and what follows it. -/
def quoted? (s : Text) : Option (Text × Text) :=
  match s with
  | '"' :: '"' :: '"' :: rest => upToThree '"' escapedLineStep (s.length + 1) (dropFirstBreak rest)
  | '"' :: rest => basic? rest
  | '\'' :: '\'' :: '\'' :: rest => upToThree '\'' lineStep (s.length + 1) (dropFirstBreak rest)
  | '\'' :: rest => literal? rest
  | _ => none

end QuartoPretext.Toml
