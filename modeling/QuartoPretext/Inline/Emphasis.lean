/-
# Emphasis

Runs of asterisks or low lines open and close emphasis, as the characters
around them allow. A closing run takes the nearest opening run of its
character and scope: two delimiters of each make strong emphasis, one of each
makes plain emphasis. Runs between the two can open nothing any more.

Key definitions: `DelimiterRun`, `Emphasis.nodes`, `Emphasis.pair?`,
`Emphasis.close`, `Emphasis.resolveRuns`, `Emphasis.resolve`.
-/
import QuartoPretext.Inline.Span
import QuartoPretext.Warning

namespace QuartoPretext

/-- A run of delimiters: what it can do, and what has been made of it. -/
structure DelimiterRun where
  char : Char
  /-- its length in the source -/
  length : Nat
  /-- the delimiters that are still text -/
  unmatched : Nat
  canOpen : Bool
  canClose : Bool
  /-- the innermost link or note around it -/
  scope : Option Nat
  /-- whether an index entry follows directly -/
  beforeIndex : Bool
  /-- the emphasis it closes, in order -/
  closed : List Emphasis
  /-- the emphasis it opens, in order -/
  opened : List Emphasis
  deriving Repr, DecidableEq

namespace Emphasis

open Text

/-- How a neighbour of a run looks. -/
inductive Flank
  | space
  | punctuation
  | other
  deriving Repr, DecidableEq

/-- Punctuation is ASCII punctuation and every character beyond ASCII that is
neither letter nor number. -/
def Flank.ofChar (c : Char) : Flank :=
  if isSpace c then space
  else if isAsciiPunctuation c || (!isAlphanumeric c && 128 ≤ c.toNat) then punctuation
  else other

/-- The ends of the text look like white space, the edges of scopes like
punctuation. -/
def Flank.of : Option Cell → Flank
  | none => space
  | some (.char c) => ofChar c
  | some (.mark m) => if m.isEdge then punctuation else other

/-- Whether a run with these neighbours starts a word. -/
def leftFlanking (before after : Flank) : Bool :=
  after != .space && (after != .punctuation || before != .other)

/-- Whether a run with these neighbours ends a word. -/
def rightFlanking (before after : Flank) : Bool := leftFlanking after before

/-- Low lines within a word neither open nor close. -/
def canOpen (c : Char) (before after : Flank) : Bool :=
  leftFlanking before after &&
    (c == '*' || !rightFlanking before after || before == .punctuation)

def canClose (c : Char) (before after : Flank) : Bool := canOpen c after before

def isDelimiter (c : Char) : Bool := c == '*' || c == '_'

def isIndexCell : Option Cell → Bool
  | some (.mark m) => m.isIndex
  | _ => false

/-- A run as it stands in the source. -/
def makeRun (c : Char) (length : Nat) (before after : Option Cell) (scope : Option Nat) :
    DelimiterRun where
  char := c
  length := length
  unmatched := length
  canOpen := canOpen c (.of before) (.of after)
  canClose := canClose c (.of before) (.of after)
  scope := scope
  beforeIndex := isIndexCell after
  closed := []
  opened := []

/-- A cell that takes no part, or a run. -/
inductive Node
  | cell (c : Cell)
  | run (r : DelimiterRun)
  deriving Repr, DecidableEq

/-- The scopes that are open after a mark, innermost first. -/
def scopesAfter (m : Mark) (scopes : List Nat) : List Nat :=
  match m.opens? with
  | some n => n :: scopes
  | none => if m.closes?.isSome then scopes.tail else scopes

/-- Finds the runs. `before` is the cell before the given ones; a run directly
after a backslash is text. -/
def nodes (before : Option Cell) (scopes : List Nat) : List Cell → List Node
  | [] => []
  | .mark m :: rest => .cell (.mark m) :: nodes (some (.mark m)) (scopesAfter m scopes) rest
  | .char c :: rest =>
    if isDelimiter c then
      let same := rest.takeWhile (Cell.isChar c)
      let after := rest.dropWhile (Cell.isChar c)
      if before == some (.char '\\') then
        .cell (.char c) :: same.map .cell ++ nodes (some (.char c)) scopes after
      else
        .run (makeRun c (1 + same.length) before after.head? scopes.head?) ::
          nodes (some (.char c)) scopes after
    else .cell (.char c) :: nodes (some (.char c)) scopes rest
termination_by cells => cells.length
decreasing_by
  · simp
  · have := (List.dropWhile_sublist (Cell.isChar c) (l := rest)).length_le
    simp only [List.length_cons]
    omega
  · have := (List.dropWhile_sublist (Cell.isChar c) (l := rest)).length_le
    simp only [List.length_cons]
    omega
  · simp

/-- Where a run could be at both ends, the lengths of a pair do not add up to a
multiple of three, unless both are multiples of three. -/
def lengthsFit (opener closer : DelimiterRun) : Bool :=
  !((opener.canOpen && opener.canClose) || (closer.canOpen && closer.canClose)) ||
    (opener.length + closer.length) % 3 != 0 ||
    (opener.length % 3 == 0 && closer.length % 3 == 0)

/-- Whether a run can be closed by a later one. -/
def fits (opener closer : DelimiterRun) : Bool :=
  opener.char == closer.char && opener.canOpen && opener.scope == closer.scope &&
    0 < opener.unmatched && lengthsFit opener closer

/-- What a pair of runs makes, and how many delimiters of each it takes. Strong
emphasis right before an index entry is a term. -/
def kindOf (opener closer : DelimiterRun) : Emphasis × Nat :=
  if 2 ≤ opener.unmatched && 2 ≤ closer.unmatched then
    (if closer.beforeIndex then term else alert, 2)
  else (em, 1)

/-- Pairs a run with the nearest one before it that fits; the earlier runs come
latest first. -/
def pair? (closer : DelimiterRun) : List DelimiterRun → Option (List DelimiterRun × DelimiterRun)
  | [] => none
  | r :: earlier =>
    if fits r closer then
      let (e, n) := kindOf r closer
      some ({ r with unmatched := r.unmatched - n, opened := e :: r.opened } :: earlier,
        { closer with unmatched := closer.unmatched - n, closed := closer.closed ++ [e] })
    else
      (pair? closer earlier).map fun (rs, c) => ({ r with canOpen := false } :: rs, c)

/-- Pairs a run as long as it has delimiters left, at most `n` times. -/
def close : Nat → List DelimiterRun → DelimiterRun → List DelimiterRun × DelimiterRun
  | 0, earlier, closer => (earlier, closer)
  | n + 1, earlier, closer =>
    if closer.unmatched = 0 then (earlier, closer)
    else
      match pair? closer earlier with
      | some (earlier', closer') => close n earlier' closer'
      | none => (earlier, closer)

/-- Lets each run close what it can, from left to right. -/
def resolveRuns (earlier : List DelimiterRun) : List DelimiterRun → List DelimiterRun
  | [] => earlier.reverse
  | r :: rest =>
    if r.canClose then
      let (earlier', r') := close r.unmatched earlier r
      resolveRuns (r' :: earlier') rest
    else resolveRuns (r :: earlier) rest

def runs (ns : List Node) : List DelimiterRun :=
  ns.filterMap fun
    | .cell _ => none
    | .run r => some r

/-- What a run becomes: end tags, the delimiters that are left, start tags. -/
def runCells (r : DelimiterRun) : List Cell :=
  r.closed.map (fun e => .mark (.emphasisClose e)) ++ List.replicate r.unmatched (.char r.char) ++
    r.opened.map fun e => .mark (.emphasisOpen e)

/-- Puts resolved runs in the place of the runs among the nodes. -/
def place : List Node → List DelimiterRun → List Cell
  | [], _ => []
  | .cell c :: ns, rs => c :: place ns rs
  | .run r :: ns, [] => runCells r ++ place ns []
  | .run _ :: ns, r :: rs => runCells r ++ place ns rs

/-- Whether delimiters that are left are worth a warning: low lines within a
word are not. -/
def isReported (r : DelimiterRun) : Bool :=
  0 < r.unmatched && (r.canOpen || r.canClose) && !(r.char == '_' && r.canOpen && r.canClose)

def warnings (rs : List DelimiterRun) : List Cause :=
  (rs.filter isReported).map fun r => .unmatched (List.replicate r.unmatched r.char)

/-- Resolves the emphasis in a list of spans, and tells what is left over. -/
def resolve (spans : List Span) : List Span × List Cause :=
  let ns := nodes none [] (Span.toCells spans)
  let rs := resolveRuns [] (runs ns)
  (Span.ofCells (place ns rs), warnings rs)

end Emphasis
end QuartoPretext
