/-
# Reading TOML

A document is a list of statements, one on a line: headers, and keys with their
values. The keys before the first header belong to the document itself.

Key definitions: `key?`, `value?`, `Statement`, `statements?`, `parse?`.
-/
import QuartoPretext.Toml.Quoted
import QuartoPretext.Toml.Scalar
import QuartoPretext.Toml.Table

namespace QuartoPretext.Toml

open Text

def skipBlanks (s : Text) : Text := s.dropWhile isTabOrSpace

/-- What follows a comment, or what has no comment. -/
def afterComment? (s : Text) : Option Text :=
  match s with
  | '#' :: rest =>
    let after := rest.dropWhile fun c => !isControl c
    if after.isEmpty || (afterBreak? after).isSome then some after else none
  | _ => some s

/-- What follows blanks, comments and line ends. -/
def skipGap? : Nat → Text → Option Text
  | 0, s => some s
  | fuel + 1, s =>
    (afterComment? (skipBlanks s)).bind fun s =>
      match afterBreak? s with
      | some rest => skipGap? fuel rest
      | none => some s

/-- What follows blanks, comments and line ends. -/
def gap? (s : Text) : Option Text := skipGap? s.length s

/-- What follows the rest of a line that says nothing more. -/
def lineEnd? (s : Text) : Option Text :=
  (afterComment? (skipBlanks s)).bind fun s => if s.isEmpty then some s else afterBreak? s

/-- The characters of a key without quotes. -/
def isBare (c : Char) : Bool := c.isAlphanum || c == '_' || c == '-'

/-- A key without dots, and what follows it. -/
def simpleKey? (s : Text) : Option (Text × Text) :=
  match s with
  | '"' :: rest => basic? rest
  | '\'' :: rest => literal? rest
  | _ =>
    let k := s.takeWhile isBare
    if k.isEmpty then none else some (k, s.drop k.length)

/-- A dotted key: the path to a table and the key in it, and what follows. -/
def dottedKey? : Nat → Text → Option (List Text × Text × Text)
  | 0, _ => none
  | fuel + 1, s =>
    (simpleKey? (skipBlanks s)).bind fun (k, rest) =>
      match skipBlanks rest with
      | '.' :: more => (dottedKey? fuel more).map fun (path, last, after) => (k :: path, last, after)
      | rest => some ([], k, rest)

def key? (s : Text) : Option (List Text × Text × Text) := dottedKey? (s.length + 1) s

/-- Reads items with commas between them, and maybe one after the last, up to a
closing character. An item adds to what was read before it. -/
def separated? {α : Type} (close : Char) (item : α → Text → Option (α × Text)) :
    Nat → α → Text → Option (α × Text)
  | 0, _, _ => none
  | fuel + 1, read, s =>
    (gap? s).bind fun s =>
      if s.head? == some close then some (read, s.tail)
      else
        (item read s).bind fun (read, rest) =>
          (gap? rest).bind fun rest =>
            match rest with
            | ',' :: more => separated? close item fuel read more
            | c :: more => if c == close then some (read, more) else none
            | [] => none

/-- A key with its value, given a reader of values. -/
def pair? (value : Text → Option (Value × Text)) (s : Text) :
    Option ((List Text × Text × Value) × Text) :=
  (key? s).bind fun (path, k, rest) =>
    match rest with
    | '=' :: rest => (value (skipBlanks rest)).map fun (v, after) => ((path, k, v), after)
    | _ => none

/-- A value in which lists and tables are nested no deeper than given, and what
follows it. -/
def nested? : Nat → Text → Option (Value × Text)
  | 0, s => ((quoted? s).map fun (t, rest) => (.string t, rest)).or (scalar? s)
  | depth + 1, s =>
    match s with
    | '[' :: rest =>
      let element (read : List Value) (s : Text) : Option (List Value × Text) :=
        (nested? depth s).map fun (v, after) => (read ++ [v], after)
      (separated? ']' element (s.length + 1) [] rest).map fun (vs, after) => (.array false vs, after)
    | '\x7b' :: rest =>
      let entry (read : Entries) (s : Text) : Option (Entries × Text) :=
        (pair? (nested? depth) s).bind fun ((path, k, v), after) =>
          (put? path k v read).map fun entries => (entries, after)
      (separated? '\x7d' entry (s.length + 1) [] rest).map fun (es, after) =>
        (.table .inline es, after)
    | _ => ((quoted? s).map fun (t, rest) => (.string t, rest)).or (scalar? s)

/-- How deep lists and tables may be nested in a value. -/
def depthBound : Nat := 80

def value? (s : Text) : Option (Value × Text) := nested? depthBound s

/-- What stands on a line. -/
inductive Statement
  | header (ofList : Bool) (path : List Text) (key : Text)
  | pair (path : List Text) (key : Text) (value : Value)
  deriving Repr

/-- The header or the key and value at the start of a text, and what follows. -/
def statement? (s : Text) : Option (Statement × Text) :=
  match s with
  | '[' :: '[' :: rest =>
    (key? rest).bind fun (path, k, rest) =>
      match rest with
      | ']' :: ']' :: after => some (.header true path k, after)
      | _ => none
  | '[' :: rest =>
    (key? rest).bind fun (path, k, rest) =>
      match rest with
      | ']' :: after => some (.header false path k, after)
      | _ => none
  | _ => (pair? value? s).map fun ((path, k, v), after) => (.pair path k v, after)

/-- The statements of a text; `fuel` bounds how many. -/
def statementsUpTo? : Nat → Text → Option (List Statement)
  | 0, _ => none
  | fuel + 1, s =>
    (gap? s).bind fun s =>
      if s.isEmpty then some []
      else
        (statement? s).bind fun (st, rest) =>
          (lineEnd? rest).bind fun rest => (statementsUpTo? fuel rest).map (st :: ·)

/-- The statements of a document. A byte order mark may stand before them. -/
def statements? (s : Text) : Option (List Statement) :=
  statementsUpTo? (s.length + 1) ((dropPrefix? ['\ufeff'] s).getD s)

/-- Adds keys with their values to a table. -/
def fill? (pairs : List (List Text × Text × Value)) (entries : Entries) : Option Entries :=
  pairs.foldlM (fun es (path, k, v) => put? path k v es) entries

/-- The keys before the first header, and the headers with the keys under them. -/
def sections : List Statement →
    List (List Text × Text × Value) × List (Bool × List Text × Text × List (List Text × Text × Value))
  | [] => ([], [])
  | .pair path k v :: rest => ((path, k, v) :: (sections rest).1, (sections rest).2)
  | .header ofList path k :: rest => ([], (ofList, path, k, (sections rest).1) :: (sections rest).2)

/-- The entries of a document. -/
def parse? (s : Text) : Option Entries :=
  (statements? s).bind fun all =>
    let (own, headed) := sections all
    (fill? own []).bind fun entries =>
      headed.foldlM (fun es (ofList, path, k, pairs) => define? ofList path k (fill? pairs) es) entries

end QuartoPretext.Toml
