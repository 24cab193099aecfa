/-
# Solutions

A file of solutions is a numbered list. Its items count from one whatever
their markers say, and a counter command moves the count of the items on later
lines.

Key definitions: `SolutionBook`, `SolutionBook.parse`, `SolutionBook.expects`,
`Solution.parts?`.
-/
import QuartoPretext.Text.Basic

namespace QuartoPretext

/-- Solutions with their numbers, ascending. -/
structure SolutionBook where
  entries : List (Nat × Text)
  deriving Repr, DecidableEq

namespace Solution

open Text

/-- What opens a counter command. -/
def counterOpen : Text := "\\addtocounter\x7benumi\x7d\x7b".toList

/-- The numeral of a counter command at the start of a text, and what follows it. -/
def counter? (s : Text) : Option (Text × Text) :=
  match dropPrefix? counterOpen s with
  | none => none
  | some rest =>
    let sign := if rest.head? == some '-' then ['-'] else []
    let digits := (rest.drop sign.length).takeWhile isDigit
    match digits, rest.drop (sign.length + digits.length) with
    | _ :: _, '\x7d' :: after => some (sign ++ digits, after)
    | _, _ => none

/-- The numerals of the counter commands of a line, and the line without the
commands; `fuel` bounds the characters that are looked at. -/
def counters : Nat → Text → List Text × Text
  | 0, s => ([], s)
  | _, [] => ([], [])
  | fuel + 1, c :: s =>
    match counter? (c :: s) with
    | some (numeral, after) =>
      let (more, text) := counters fuel after
      (numeral :: more, text)
    | none =>
      let (more, text) := counters fuel s
      (more, c :: text)

/-- The value of a numeral in ASCII digits that fits in 64 bits with sign. -/
def step? (numeral : Text) : Option Int :=
  let value? : Option Int :=
    match numeral with
    | '-' :: digits => (toNat? digits).map fun n => -(n : Int)
    | digits => (toNat? digits).map fun n => (n : Int)
  value?.filter fun v => -0x8000000000000000 ≤ v && v < 0x8000000000000000

/-- How far the counter commands of a line move the count. -/
def steps (numerals : List Text) : Int := (numerals.filterMap step?).foldr (· + ·) 0

/-- The text of an item line: up to three white space characters, digits, a full
stop and white space before it. -/
def item? (s : Text) : Option Text :=
  let indent := s.takeWhile isSpace
  let digits := (trimStart s).takeWhile isDigit
  match digits, (trimStart s).drop digits.length with
  | _ :: _, '.' :: c :: rest =>
    if indent.length ≤ 3 && isSpace c then some (trim rest) else none
  | _, _ => none

/-- Gives a number its text in a list that ascends by number. -/
def put (n : Nat) (text : Text) : List (Nat × Text) → List (Nat × Text)
  | [] => [(n, text)]
  | e :: rest =>
    if n < e.1 then (n, text) :: e :: rest
    else if n = e.1 then (n, text) :: rest
    else e :: put n text rest

/-- What has been read of a file: the items before the open one, the count, and
the open item if its number fits in 32 bits without sign. -/
structure Reading where
  closed : List (Nat × Text)
  count : Int
  current : Option (Nat × Text)

def Reading.close (r : Reading) : List (Nat × Text) :=
  match r.current with
  | some (n, text) => put n text r.closed
  | none => r.closed

/-- A count as the number of an exercise. -/
def number? (count : Int) : Option Nat :=
  if 0 ≤ count && count < 0x100000000 then some count.toNat else none

/-- Starts an item. -/
def Reading.item (r : Reading) (first : Text) : Reading :=
  ⟨r.close, r.count + 1, (number? (r.count + 1)).map fun n => (n, first)⟩

/-- Adds a line to the open item, unless it is empty or a comment. -/
def Reading.continue (r : Reading) (s : Text) : Reading :=
  if s.isEmpty || s.head? == some '#' then r
  else { r with current := r.current.map fun (n, text) =>
    (n, if text.isEmpty then s else text ++ ' ' :: s) }

def Reading.line (r : Reading) (s : Text) : Reading :=
  let (numerals, text) := counters s.length s
  let cleaned := trimEnd text
  let r' := match item? cleaned with
    | some first => r.item first
    | none => r.continue (trim cleaned)
  { r' with count := r'.count + steps numerals }

/-- What follows a part marker, a letter in parentheses, and its white space. -/
def partMark? (s : Text) : Option Text :=
  match s with
  | '(' :: x :: ')' :: c :: rest =>
    if 'a' ≤ x && x ≤ 'z' && isSpace c then some (trimStart rest) else none
  | _ => none

theorem length_partMark? {s rest : Text} (h : partMark? s = some rest) : rest.length < s.length := by
  unfold partMark? at h
  split at h
  · split at h
    · have h1 := Option.some.inj h
      have h2 := (List.dropWhile_sublist isSpace (l := ‹Text›)).length_le
      simp only [trimStart] at h1
      simp only [List.length_cons, ← h1]
      omega
    · simp at h
  · simp at h

/-- The stretches between the part markers that stand after white space. -/
def split : Text → List Text
  | [] => [[]]
  | c :: s =>
    match _h : partMark? s with
    | some after =>
      if isSpace c then [] :: split after
      else
        match split s with
        | piece :: more => (c :: piece) :: more
        | [] => [[c]]
    | none =>
      match split s with
      | piece :: more => (c :: piece) :: more
      | [] => [[c]]
termination_by s => s.length
decreasing_by
  · have := length_partMark? _h
    simp only [List.length_cons]
    omega
  · simp
  · simp

/-- The parts of a solution that starts with its part `(a)`. -/
def parts? (s : Text) : Option (List Text) :=
  if ['(', 'a', ')'].isPrefixOf (trim s) then
    let found := match partMark? (trim s) with
      | some rest => split rest
      | none => (split (trim s)).tail
    let parts := (found.map trim).filter (!·.isEmpty)
    if parts.isEmpty then none else some parts
  else none

end Solution

namespace SolutionBook

/-- Reads a file of solutions. -/
def parse (s : Text) : SolutionBook :=
  ⟨((Text.lines s).foldl Solution.Reading.line ⟨[], 0, none⟩).close⟩

def empty : SolutionBook := ⟨[]⟩

/-- The solution of an exercise. -/
def get? (b : SolutionBook) (n : Nat) : Option Text := b.entries.lookup n

/-- The numbers that have solutions, ascending. -/
def numbers (b : SolutionBook) : List Nat := b.entries.map (·.1)

/-- Whether a number should have a solution: if any number of its parity has one. -/
def expects (b : SolutionBook) (n : Nat) : Bool := b.numbers.any fun m => m % 2 == n % 2

end SolutionBook
end QuartoPretext
