/-
# Citations

A citation is a bracket of keys, each after `@` with text after it, separated
by semicolons. Keys that name targets of cross-references are always kept;
others as the policy says. A citation of which nothing is kept goes with the
white space before it.

Key definitions: `Citation.find?`, `Citation.kept`, `Citation.resolve`.
-/
import QuartoPretext.Inline.Span
import QuartoPretext.Profile
import QuartoPretext.Text.Scan

namespace QuartoPretext.Citation

open Text

/-- The characters of a key after its first one. -/
def isKeyChar (c : Char) : Bool := isWord c || ":.#$%&+?<>~/-".toList.contains c

/-- The characters that may follow a key before the next one. -/
def isTailChar (c : Char) : Bool := !(";[]@".toList.contains c)

/-- A key without the punctuation at its end. -/
def trimKey (key : Text) : Text :=
  (key.reverse.dropWhile fun c => c == '.' || c == ':' || c == ',').reverse

/-- One cited key and the text after the stretch it stands in. -/
def item? (s : Text) : Option (Reference × Text) :=
  let start := trimStart s
  let suppressed := start.head? == some '-'
  match (if suppressed then start.drop 1 else start) with
  | '@' :: c :: rest =>
    if isWord c then
      some (⟨trimKey (c :: rest.takeWhile isKeyChar), suppressed⟩, rest.dropWhile isTailChar)
    else none
  | _ => none

/-- The keys up to the closing bracket, and the text after it; `fuel` bounds
their number. -/
def items? : Nat → Text → Option (List Reference × Text)
  | 0, _ => none
  | fuel + 1, s =>
    match item? s with
    | some (r, ']' :: rest) => some ([r], rest)
    | some (r, ';' :: rest) => (items? fuel rest).map fun (rs, after) => (r :: rs, after)
    | _ => none

/-- The citation at the start of a text, and the text after it. -/
def find? (s : Text) : Option (List Reference × Text) :=
  (dropPrefix? ['['] s).bind fun rest => items? rest.length rest

/-- The references of a citation that the policy keeps. -/
def kept (policy : CitationPolicy) (isTarget : Text → Bool) (refs : List Reference) :
    List Reference :=
  refs.filter fun r => isTarget r.key || policy == .xref

/-- Turns the citations in a text into marks, or drops them. -/
def resolve (policy : CitationPolicy) (isTarget : Text → Bool) (s : Text) : List Cell :=
  scan Cell.char (fun t =>
    match find? (trimStart t) with
    | none => none
    | some (refs, rest) =>
      let refs := kept policy isTarget refs
      if refs.isEmpty then some ([], rest)
      else if t.head? == some '[' then some ([.mark (.references refs)], rest)
      else none) s

end QuartoPretext.Citation
