/-
# Metadata of a chunk

Lines of a chunk that start with a sentinel carry `key: value` directives. A
directive without a key, or an indented one, continues the value of the key
before it; the values of a key are joined with single spaces. All other lines
are code.

Key definitions: `Metadata`, `Metadata.ofBody`, `Metadata.code`,
`Metadata.get?`.
-/
import QuartoPretext.Assoc
import QuartoPretext.Line.Basic

namespace QuartoPretext

/-- The values that directives give to keys. -/
structure Metadata where
  entries : Assoc Text Text
  deriving Repr, DecidableEq

namespace Metadata

open Text

/-- What follows the sentinel of a directive line. One space after the sentinel
belongs to it. -/
def directive? (line : Text) : Option Text :=
  (dropPrefix? ['#', '|'] (trimStart line)).map fun content =>
    (dropPrefix? [' '] content).getD content

/-- A key starts with an ASCII letter and goes on with letters, digits, hyphens,
low lines and full stops. -/
def isKey (key : Text) : Bool :=
  (key.head?.any Char.isAlpha) &&
    key.all fun c => c.isAlphanum || c == '-' || c == '_' || c == '.'

/-- The key and the value of a directive that has a key. -/
def keyed? (content : Text) : Option (Text × Text) :=
  (cutWhere? (· == ':') (trim content)).filter fun kv => isKey kv.1

/-- The marks that announce a block of text instead of a value. -/
def blockMarks : List Text := [['|'], ['>'], ['|', '-'], ['>', '-'], ['|', '+'], ['>', '+']]

/-- A value without block mark, quotes and surrounding white space. -/
def cleanValue (value : Text) : Text :=
  let v := if blockMarks.contains (trim value) then [] else trim value
  trim (((between? ['"'] ['"'] v).orElse fun _ => between? ['\''] ['\''] v).getD v)

/-- The text without the list dashes it starts with. -/
def dropDashes : Text → Text
  | '-' :: ' ' :: s => dropDashes s
  | s => s

/-- Two pieces of a value; an empty piece adds nothing. -/
def joinPieces (a b : Text) : Text :=
  if b.isEmpty then a else if a.isEmpty then b else a ++ ' ' :: b

/-- Adds a piece to the value of a key. -/
def append (m : Metadata) (key piece : Text) : Metadata :=
  ⟨m.entries.insert key (joinPieces ((m.entries.get? key).getD []) piece)⟩

/-- The metadata read so far and the key that a continuation would extend. -/
structure Reading where
  metadata : Metadata
  key : Option Text

/-- Whether a directive is indented beyond its sentinel. -/
def isIndented (content : Text) : Bool := content.head?.any isTabOrSpace

/-- Continues the current key. -/
def Reading.continue (r : Reading) (content : Text) : Reading :=
  match r.key with
  | some key => { r with metadata := r.metadata.append key (cleanValue (dropDashes (trim content))) }
  | none => r

def Reading.line (r : Reading) (line : Text) : Reading :=
  match directive? line with
  | none => { r with key := none }
  | some content =>
    match keyed? content with
    | some (key, value) =>
      if !isIndented content || r.key.isNone then ⟨r.metadata.append key (cleanValue value), some key⟩
      else r.continue content
    | none => r.continue content

def empty : Metadata := ⟨Assoc.empty⟩

/-- The metadata of a chunk body. -/
def ofBody (body : List Line) : Metadata :=
  (body.foldl (fun (r : Reading) l => r.line l.text) ⟨empty, none⟩).metadata

/-- The lines of a chunk body that are code. -/
def code (body : List Line) : List Line := body.filter fun l => (directive? l.text).isNone

/-- Sets a key that no directive has set. -/
def setDefault (m : Metadata) (key value : Text) : Metadata := ⟨m.entries.insertNew key value⟩

/-- The value of a key, if it is not empty. -/
def get? (m : Metadata) (key : Text) : Option Text := (m.entries.get? key).filter (!·.isEmpty)

/-- Whether the chunk takes part in the document. -/
def included (m : Metadata) : Bool :=
  !((m.get? "include".toList).any fun v => lowerAscii v == "false".toList)

def size (m : Metadata) : Nat := m.entries.size

end Metadata
end QuartoPretext
