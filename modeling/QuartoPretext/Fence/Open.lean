/-
# The opening line of a code fence

After the mark stands nothing, a language, an attribute block that starts with
a class, an identifier or an equals sign, or the header of an executable chunk:
engine, label and options.

Key definitions: `CodeFence`, `CodeFence.parse?`, `CodeFence.options`.
-/
import QuartoPretext.Attributes.Basic
import QuartoPretext.Fence.Mark

namespace QuartoPretext

/-- A code fence by its opening line. -/
structure CodeFence where
  /-- the opening line without white space around it -/
  opener : Text
  mark : FenceMark
  language : Option Text
  /-- whether the code is a chunk to run -/
  executable : Bool
  label : Option Text
  attrs : Attributes
  deriving Repr, DecidableEq

namespace CodeFence

open Text

def isQuote (c : Char) : Bool := c == '"' || c == '\''

/-- Puts a character in front of the first piece. -/
def extendFirst (c : Char) : List Text → List Text
  | [] => [[c]]
  | piece :: more => (c :: piece) :: more

/-- The pieces between the commas that stand outside quotes; `quote` is the one
that is open. -/
def options (quote : Option Char) : Text → List Text
  | [] => [[]]
  | c :: s =>
    match quote with
    | some q => extendFirst c (options (if c == q then none else some q) s)
    | none =>
      if isQuote c then extendFirst c (options (some c) s)
      else if c == ',' then [] :: options none s
      else extendFirst c (options none s)

/-- The text without the quotes around it. -/
def unquote (s : Text) : Text := ((s.dropWhile isQuote).reverse.dropWhile isQuote).reverse

/-- An option with an equals sign sets a value; the first one without it is the label. -/
def addOption (f : CodeFence) (token : Text) : CodeFence :=
  match cutWhere? (· == '=') token with
  | some (key, value) =>
    { f with attrs := { f.attrs with
        values := f.attrs.values.insert (trim key) (unquote (trim value)) } }
  | none => if f.label.isNone && !token.isEmpty then { f with label := some token } else f

/-- A fence whose opening line says nothing. -/
def bare (opener : Text) (mark : FenceMark) : CodeFence :=
  ⟨opener, mark, none, false, none, Attributes.none⟩

/-- Whether the inside of a brace block is an attribute block. -/
def isAttributeBlock : Text → Bool
  | [] => false
  | c :: _ => c == '.' || c == '#' || c == '='

/-- Adds a chunk header: the engine and further words, then options. -/
def withHeader (f : CodeFence) (header : Text) : CodeFence :=
  let parts := options none header
  let first := words (parts.headD [])
  (first.tail ++ parts.tail.map trim).foldl addOption
    { f with executable := true, language := first.head? }

/-- Adds what follows the mark. -/
def withInfo (f : CodeFence) (info : Text) : CodeFence :=
  match between? ['\x7b'] ['\x7d'] info with
  | some inner =>
    if isAttributeBlock (trim inner) then
      let attrs := Attributes.parse (trim inner)
      { f with attrs, language := attrs.classes.head? }
    else f.withHeader (trim inner)
  | none => { f with language := (words info).head? }

/-- Reads a line as the opening of a code fence. -/
def parse? (line : Text) : Option CodeFence :=
  let s := trim line
  (FenceMark.detect? s).map fun mark =>
    (bare s mark).withInfo (trim (s.drop mark.length))

end CodeFence
end QuartoPretext
