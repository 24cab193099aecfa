/-
# Cross-references

A reference is `@` and a key: a known kind, a hyphen and a name. A minus sign
before it suppresses the type of its target. A reference may stand in brackets
after a text of its own.

Key definitions: `CrossReference.isTarget`, `CrossReference.key?`,
`CrossReference.bracketed?`, `CrossReference.resolve`.
-/
import QuartoPretext.Inline.Span
import QuartoPretext.Text.Scan

namespace QuartoPretext.CrossReference

open Text

/-- Whether a key names a target of one of the kinds. -/
def isTarget (kinds : List Text) (key : Text) : Bool :=
  match cutWhere? (· == '-') key with
  | some (kind, name) => !name.isEmpty && kinds.contains kind
  | none => false

def isNameChar (c : Char) : Bool := isWord c || c == ':' || c == '-'

/-- The longest beginning of a text that is a name: word characters, colons and
hyphens up to a word character. -/
def nameOf (s : Text) : Text := ((s.takeWhile isNameChar).reverse.dropWhile (!isWord ·)).reverse

/-- The key at the start of a text, and the text after it: of the first kind
that gives one. -/
def key? (kinds : List Text) (s : Text) : Option (Text × Text) :=
  kinds.findSome? fun kind =>
    match dropPrefix? (kind ++ ['-']) s with
    | none => none
    | some rest =>
      let name := nameOf rest
      if name.isEmpty then none else some (kind ++ '-' :: name, rest.drop name.length)

/-- The reference at the start of a text, and the text after it. -/
def reference? (kinds : List Text) (s : Text) : Option (Reference × Text) :=
  let suppressed := s.head? == some '-'
  match (if suppressed then s.drop 1 else s) with
  | '@' :: rest => (key? kinds rest).map fun (key, after) => (⟨key, suppressed⟩, after)
  | _ => none

def referenceCell (r : Reference) : Cell := .mark (.references [r])

/-- The key after `@` that a closing bracket follows, and the text after it. -/
def closedKey? (kinds : List Text) (s : Text) : Option (Text × Text) :=
  kinds.findSome? fun kind =>
    match key? [kind] s with
    | some (key, ']' :: rest) => some (key, rest)
    | _ => none

/-- A text and a reference in brackets. -/
def bracketed? (kinds : List Text) (s : Text) : Option (List Cell × Text) :=
  match s with
  | '[' :: inside =>
    let isLead := fun c => c != '[' && c != ']' && c != '@'
    let lead := inside.takeWhile isLead
    match inside.dropWhile isLead with
    | '@' :: rest =>
      (closedKey? kinds rest).map fun (key, after) =>
        if lead.getLast? == some '-' then
          (Span.cellsOf lead.dropLast ++ [referenceCell ⟨key, true⟩], after)
        else (Span.cellsOf lead ++ [referenceCell ⟨key, false⟩], after)
    | _ => none
  | _ => none

/-- A reference after a character that is part of no word and no address. -/
def bare? (kinds : List Text) (s : Text) : Option (List Cell × Text) :=
  match s with
  | [] => none
  | c :: rest =>
    if isWord c || c == '@' || c == '\\' then none
    else (reference? kinds rest).map fun (r, after) => ([.char c, referenceCell r], after)

/-- Turns the bare references in a text into marks; one may start the text. -/
def bare (kinds : List Text) (s : Text) : List Cell :=
  match reference? kinds s with
  | some (r, after) => referenceCell r :: scan Cell.char (bare? kinds) after
  | none => scan Cell.char (bare? kinds) s

/-- Resolves the references to the given kinds: those in brackets first. -/
def resolve (kinds : List Text) (spans : List Span) : List Span :=
  Span.mapText (bare kinds) (Span.mapText (scan Cell.char (bracketed? kinds)) spans)

end QuartoPretext.CrossReference
