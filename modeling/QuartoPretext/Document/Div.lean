/-
# Divs and their parts

The class of a div says what it becomes. Divs of two phases are split where
the second one starts: at a line that counts only outside of code and of divs
within.

Key definitions: `DivKind`, `DivKind.of`, `Div.splitTop?`,
`Div.leadingHeading?`, `Div.strongTitle?`, `Div.isSolutionTitle`.
-/
import QuartoPretext.Block.Basic
import QuartoPretext.Profile

namespace QuartoPretext

/-- What a div becomes. -/
inductive DivKind
  | data
  | important
  | workedExample
  | exercise
  | introduction
  | callout
  /-- its content stands as if there were no div -/
  | transparent
  | skipped
  | unknown
  deriving Repr, DecidableEq

namespace Div

open Text

def calloutStem : Text := "callout-".toList

/-- The kind of a class that is not skipped. -/
def kindOfClass (c : Text) : DivKind :=
  if c == "data".toList then .data
  else if c == "important".toList then .important
  else if c == "workedexample".toList then .workedExample
  else if c == "guidedpractice".toList || c == "exercise".toList then .exercise
  else if c == "chapterintro".toList then .introduction
  else if c == "exercises".toList then .transparent
  else if calloutStem.isPrefixOf c then .callout
  else .unknown

/-- The kind of a div: any class may have it skipped, else the first one counts. -/
def kind (p : Profile) (attrs : Attributes) : DivKind :=
  if attrs.classes.any p.skips then .skipped
  else
    match attrs.classes with
    | c :: _ => kindOfClass c
    | [] => .unknown

/-- Splits lines at the first one that is accepted, outside of code and of divs
within. `depth` divs are open, and so is the code fence `fence`. -/
def splitTop? (accepts : Line → Option DivFence → Bool) (depth : Nat) (fence : Option FenceMark) :
    List Line → Option (List Line × Line × List Line)
  | [] => none
  | l :: rest =>
    let keep := Option.map fun (before, at', after) => (l :: before, at', after)
    if FenceMark.isCode fence l.text then
      keep (splitTop? accepts depth (FenceMark.next fence l.text) rest)
    else
      let div := DivFence.parse? l.text
      if depth = 0 && accepts l div then some ([], l, rest)
      else
        match div with
        | some (.opening ..) => keep (splitTop? accepts (depth + 1) none rest)
        | some (.closing _) => keep (splitTop? accepts (depth - 1) none rest)
        | none => keep (splitTop? accepts depth none rest)

/-- The heading that lines start with, without attributes, and the lines after it. -/
def leadingHeading? (ls : List Line) : Option (Text × List Line) :=
  match ls.dropWhile Line.isBlank with
  | [] => none
  | l :: rest =>
    (BlockStart.heading? (trim l.text)).map fun (_, raw) =>
      (((Attributes.splitTrailing? raw).map (·.1)).getD raw, rest)

/-- A text without the colons and full stops it ends with. -/
def trimStops (s : Text) : Text := (s.reverse.dropWhile fun c => c == ':' || c == '.').reverse

/-- Whether a title only announces a solution. -/
def isSolutionTitle (title : Text) : Bool :=
  let t := lowerAscii (trim (trimStops (trim title)))
  t == "solution".toList || t == "answer".toList

/-- Lines without a leading heading that only announces a solution. -/
def withoutSolutionHeading (ls : List Line) : List Line :=
  match leadingHeading? ls with
  | some (title, rest) => if isSolutionTitle title then rest else ls
  | none => ls

/-- Strong text up to its closing asterisks, and the text after them and a
following full stop or colon. -/
def strongRest? (s : Text) : Option (Text × Text) :=
  let inner := s.takeWhile (· != '*')
  match s.dropWhile (· != '*') with
  | '*' :: '*' :: '.' :: rest | '*' :: '*' :: ':' :: rest =>
    if inner.isEmpty then none else some (inner, rest)
  | '*' :: '*' :: rest => if inner.isEmpty then none else some (inner, rest)
  | _ => none

/-- The text before the first strong text, that text and the text after it. -/
def strong? : Text → Option (Text × Text × Text)
  | [] => none
  | c :: s =>
    match (dropPrefix? ['*', '*'] (c :: s)).bind strongRest? with
    | some (inner, rest) => some ([], inner, rest)
    | none => (strong? s).map fun (before, found) => (c :: before, found)

/-- Two texts with a space between them if neither is empty. -/
def joinAround (before after : Text) : Text :=
  if before.isEmpty || after.isEmpty then before ++ after else before ++ ' ' :: after

/-- The first strong text of a line as a title, and the line without it. -/
def strongTitle? (s : Text) : Option (Text × Text) :=
  match strong? s with
  | none => none
  | some (before, inner, after) =>
    let title := trim (trimStops (trim inner))
    if title.isEmpty then none else some (title, joinAround (trim before) (trim after))

/-- Lines whose first one that is not blank gives up a strong title. -/
def promoteTitle? : List Line → Option (Text × List Line)
  | [] => none
  | l :: rest =>
    if l.isBlank then (promoteTitle? rest).map fun (title, ls) => (title, l :: ls)
    else (strongTitle? l.text).map fun (title, text) => (title, ⟨l.number, text⟩ :: rest)

end Div
end QuartoPretext
