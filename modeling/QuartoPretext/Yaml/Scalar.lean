/-
# YAML scalars

A scalar is written plain, in single or double quotes, or as a block. Each
reader takes a scalar from the place where it starts, and fails where the text
is not well formed.

Key definitions: `Scalar`, `Scalar.quoted?`, `Scalar.plain?`, `Scalar.block?`.
-/
import QuartoPretext.Yaml.Place

namespace QuartoPretext.Yaml

structure Scalar where
  text : Text
  /-- whether it is written without quotes and not as a block -/
  plain : Bool
  deriving Repr, DecidableEq

namespace Scalar

def isHexDigit (c : Char) : Bool :=
  c.isDigit || ('a' ≤ c && c ≤ 'f') || ('A' ≤ c && c ≤ 'F')

def hexDigit (c : Char) : Nat :=
  if c.isDigit then c.toNat - '0'.toNat
  else if 'a' ≤ c then c.toNat - 'a'.toNat + 10
  else c.toNat - 'A'.toNat + 10

/-- The value of hexadecimal digits. -/
def hexValue (digits : Text) : Nat := digits.foldl (fun n c => 16 * n + hexDigit c) 0

/-- The character with a code point that is one. -/
def char? (n : Nat) : Option Char :=
  if n < 0xd800 || (0xdfff < n && n ≤ 0x10ffff) then some (Char.ofNat n) else none

/-- The character that a one-letter escape stands for. -/
def simpleEscape? (c : Char) : Option Char :=
  [('0', 0), ('a', 7), ('b', 8), ('t', 9), ('\t', 9), ('n', 10), ('v', 11), ('f', 12), ('r', 13),
    ('e', 27), (' ', 32), ('"', 34), ('/', 47), ('\\', 92), ('N', 0x85), ('_', 0xa0),
    ('L', 0x2028), ('P', 0x2029)].lookup c |>.map Char.ofNat

/-- The number of digits of a numeric escape. -/
def numericEscape? (c : Char) : Option Nat := [('x', 2), ('u', 4), ('U', 8)].lookup c

/-- The character of an escape after its backslash, and how many characters the
escape takes. -/
def escape? (s : Text) : Option (Char × Nat) :=
  match s with
  | [] => none
  | c :: rest =>
    match simpleEscape? c with
    | some d => some (d, 1)
    | none =>
      match numericEscape? c with
      | none => none
      | some n =>
        let digits := rest.take n
        if digits.length = n && digits.all isHexDigit then
          (char? (hexValue digits)).map fun d => (d, n + 1)
        else none

/-- What ends a stretch of a quoted scalar. -/
inductive Stop
  | quote
  /-- a blank, a line break or the end -/
  | space
  /-- an escaped line break -/
  | brokenLine
  deriving Repr, DecidableEq

/-- A stretch of a quoted scalar without white space, what ends it and where;
`fuel` bounds the characters. -/
def stretch? (single : Bool) : Nat → Place → Option (Text × Stop × Place)
  | 0, _ => none
  | fuel + 1, p =>
    if p.endsWord 0 then some ([], .space, p)
    else if single && p.has 0 '\'' && p.has 1 '\'' then
      (stretch? single fuel (p.skip 2)).map fun (s, e) => ('\'' :: s, e)
    else if p.has 0 (if single then '\'' else '"') then some ([], .quote, p)
    else if !single && p.has 0 '\\' then
      if (p.look 1).any isBreak then some ([], .brokenLine, (p.skip 1).skipBreak)
      else
        match escape? (p.rest.drop 1) with
        | none => none
        | some (c, n) => (stretch? single fuel (p.skip (n + 1))).map fun (s, e) => (c :: s, e)
    else (stretch? single fuel (p.skip 1)).map fun (s, e) => ((p.look 0).toList ++ s, e)

/-- The rest of a quoted scalar, up to and with its closing quote. -/
def quotedRest? (single : Bool) : Nat → Place → Option (Text × Place)
  | 0, _ => none
  | fuel + 1, p =>
    if p.atDocumentMark || p.rest.isEmpty then none
    else
      match stretch? single (p.rest.length + 1) p with
      | none => none
      | some (s, .quote, q) => some (s, q.skip 1)
      | some (s, stop, q) =>
        let before : Gap := if stop = .brokenLine then ⟨[], true, [], []⟩ else .none
        match q.gap 0 (q.rest.length + 1) before with
        | none => none
        | some (g, r) => (quotedRest? single fuel r).map fun (t, e) => (s ++ g.fold ++ t, e)

/-- A quoted scalar from its opening quote on. -/
def quoted? (single : Bool) (p : Place) : Option (Scalar × Place) :=
  (quotedRest? single (p.rest.length + 1) (p.skip 1)).map fun (s, q) => (⟨s, false⟩, q)

def isFlowMark (c : Char) : Bool := ",[]\x7b\x7d".toList.contains c

/-- Whether a plain scalar ends at a character that is no white space. -/
def endsPlain (inFlow : Bool) (p : Place) : Bool :=
  (p.has 0 ':' && p.endsWord 1) || (inFlow && (p.look 0).any isFlowMark)

/-- Whether a colon stands where a flow collection admits none. -/
def strayColon (inFlow : Bool) (p : Place) : Bool :=
  inFlow && p.has 0 ':' && (p.look 1).any fun c => c == '?' || isFlowMark c

/-- A stretch of a plain scalar without white space, and the place after it. -/
def plainStretch? (inFlow : Bool) : Nat → Place → Option (Text × Place)
  | 0, _ => none
  | fuel + 1, p =>
    if p.endsWord 0 then some ([], p)
    else if strayColon inFlow p then none
    else if endsPlain inFlow p then some ([], p)
    else (plainStretch? inFlow fuel (p.skip 1)).map fun (s, q) => ((p.look 0).toList ++ s, q)

/-- The rest of a plain scalar after the gap `g`: its text, whether a line break
stands before the place where it ends, and that place. Its lines are indented
by `indent` columns at least. -/
def plainRest? (inFlow : Bool) (indent : Nat) : Nat → Gap → Place → Option (Text × Bool × Place)
  | 0, _, _ => none
  | fuel + 1, g, p =>
    if p.atDocumentMark || p.has 0 '#' then some ([], g.crossed, p)
    else
      match plainStretch? inFlow (p.rest.length + 1) p with
      | none => none
      | some (s, q) =>
        let text := if s.isEmpty then [] else g.fold ++ s
        let pending := if s.isEmpty then g else .none
        if !(q.look 0).any isBlankOrBreak then some (text, pending.crossed, q)
        else
          match q.gap indent (q.rest.length + 1) pending with
          | none => none
          | some (g', r) =>
            if !inFlow && r.column < indent then some (text, g'.crossed, r)
            else
              (plainRest? inFlow indent fuel g' r).map fun (t, e) => (text ++ t, e)

/-- A plain scalar, and whether a line break has been passed after it. -/
def plain? (inFlow : Bool) (indent : Nat) (p : Place) : Option (Scalar × Bool × Place) :=
  (plainRest? inFlow indent (p.rest.length + 1) .none p).map fun (s, e) => (⟨s, true⟩, e)

/-- What becomes of the line breaks at the end of a block. -/
inductive Chomping
  | strip
  | clip
  | keep
  deriving Repr, DecidableEq

def chomping? (p : Place) : Option Chomping :=
  if p.has 0 '+' then some .keep else if p.has 0 '-' then some .strip else none

/-- The indentation that a block header gives; none is given where it is 0. -/
def increment? (p : Place) : Option Nat :=
  (p.look 0).bind fun c => if c.isDigit then some (c.toNat - '0'.toNat) else none

/-- The header of a block after its mark: chomping, indentation and the place
after both. -/
def header? (p : Place) : Option (Chomping × Nat × Place) :=
  let (chomping, increment, q) :=
    match chomping? p with
    | some ch =>
      match increment? (p.skip 1) with
      | some n => (ch, some n, p.skip 2)
      | none => (ch, none, p.skip 1)
    | none =>
      match increment? p with
      | some n =>
        match chomping? (p.skip 1) with
        | some ch => (ch, some n, p.skip 2)
        | none => (.clip, some n, p.skip 1)
      | none => (.clip, none, p)
  if increment == some 0 then none else some (chomping, increment.getD 0, q)

/-- Passes the indentation and the empty lines before a line of a block: the
line breaks, the largest column that was met, and the place after. An
`indent` of 0 is still to be found out. -/
def blockBreaks? (indent : Nat) : Nat → Nat → Place → Option (Text × Nat × Place)
  | 0, _, _ => none
  | fuel + 1, widest, p =>
    let spaces := (p.rest.takeWhile (· == ' ')).length
    let q := p.skip (if indent = 0 then spaces else min spaces (indent - p.column))
    let widest := max widest q.column
    if (indent = 0 || q.column < indent) && q.has 0 '\t' then none
    else if q.breakLength = 0 then some ([], widest, q)
    else (blockBreaks? indent fuel widest q.skipBreak).map fun (s, e) => (q.breakText ++ s, e)

/-- The text of the lines of a block. `lineBreak` ends the line before, `breaks`
are the empty lines since, and `led` tells whether that line starts with a
blank. -/
def blockLines? (literal : Bool) (chomping : Chomping) (indent : Nat) :
    Nat → Text → Text → Bool → Place → Option (Text × Place)
  | 0, _, _, _, _ => none
  | fuel + 1, lineBreak, breaks, led, p =>
    if p.column != indent || p.rest.isEmpty then
      some ((if chomping = .strip then [] else lineBreak) ++ (if chomping = .keep then breaks else []), p)
    else
      let blank := (p.look 0).any isBlank
      let joint :=
        if !literal && lineBreak == ['\n'] && !led && !blank then
          if breaks.isEmpty then [' '] else breaks
        else lineBreak ++ breaks
      let (content, q) := p.takeWhile (!isBreak ·)
      match blockBreaks? indent (q.rest.length + 1) 0 q.skipBreak with
      | none => none
      | some (breaks', _, r) =>
        (blockLines? literal chomping indent fuel q.breakText breaks' blank r).map fun (s, e) =>
          (joint ++ content ++ s, e)

/-- A block from its mark on. `parent` is the indentation of the collection that
holds it, which is none outside of all. -/
def block? (literal : Bool) (parent : Option Nat) (p : Place) : Option (Scalar × Place) :=
  match header? (p.skip 1) with
  | none => none
  | some (chomping, increment, q) =>
    let r := q.skipWhile isBlank
    let r := if r.has 0 '#' then r.skipLine else r
    if !r.atLineEnd then none
    else
      let given := if increment = 0 then 0 else parent.getD 0 + increment
      match blockBreaks? given (p.rest.length + 1) 0 r.skipBreak with
      | none => none
      | some (breaks, widest, body) =>
        let least := (parent.map (· + 1)).getD 0
        let indent := if given = 0 then max (max widest least) 1 else given
        (blockLines? literal chomping indent (p.rest.length + 1) [] breaks false body).map
          fun (s, e) => (⟨s, false⟩, e)

end Scalar
end QuartoPretext.Yaml
