/-
# YAML tokens

The tokens of a YAML text. Indentation shows as tokens that start and end
block collections. A key is known by the colon after it, so its token is put
in front of tokens that have been read already.

Key definitions: `Token`, `Scanner`, `Scanner.next?`, `Token.scan?`.
-/
import QuartoPretext.Yaml.Scalar

namespace QuartoPretext.Yaml

inductive Token
  | versionDirective (major minor : Nat)
  | tagDirective (handle meaning : Text)
  | documentStart
  | documentEnd
  | blockSequenceStart
  | blockMappingStart
  | blockEnd
  | flowSequenceStart
  | flowSequenceEnd
  | flowMappingStart
  | flowMappingEnd
  | blockEntry
  | flowEntry
  | key
  | value
  | alias (name : Text)
  | anchor (name : Text)
  | tag (handle suffix : Text)
  | scalar (s : Scalar)
  deriving Repr, DecidableEq

/-- A place where a key without a mark of its own may start. -/
structure KeyStart where
  /-- whether a key has to start here -/
  required : Bool
  /-- the number of tokens before it -/
  position : Nat
  place : Place
  deriving Repr, DecidableEq

/-- What has been read of a text. -/
structure Scanner where
  place : Place
  tokens : List Token
  /-- the columns of the open block collections, innermost first -/
  indents : List Nat
  /-- whether a key may start here -/
  keyAllowed : Bool
  /-- the key that may have started in the innermost flow collection -/
  keyStart : Option KeyStart
  /-- the same for the collections around it -/
  outerStarts : List (Option KeyStart)

namespace Scanner

def start (s : Text) : Scanner := ⟨.start s, [], [], true, none, []⟩

def inFlow (s : Scanner) : Bool := !s.outerStarts.isEmpty

/-- Adds a token and moves to a place. -/
def emit (s : Scanner) (t : Token) (p : Place) : Scanner :=
  { s with tokens := s.tokens ++ [t], place := p }

/-- Gives up the key that may have started; a required one may not be given up. -/
def dropKey? (s : Scanner) : Option Scanner :=
  if s.keyStart.any (·.required) then none else some { s with keyStart := none }

/-- Notes that a key may start here. -/
def noteKey? (s : Scanner) : Option Scanner :=
  if s.keyAllowed then
    let required := !s.inFlow && s.indents.head? == some s.place.column
    s.dropKey?.map fun d => { d with keyStart := some ⟨required, s.tokens.length, s.place⟩ }
  else some s

/-- The longest key. -/
def maxKeyLength : Nat := 1024

/-- Whether a key that started there cannot end here any more. -/
def isStale (k : KeyStart) (p : Place) : Bool :=
  k.place.line < p.line || k.place.index + maxKeyLength < p.index

/-- Gives up a start from which no key can come any more. -/
def fresh? (p : Place) (k : Option KeyStart) : Option (Option KeyStart) :=
  match k with
  | none => some none
  | some k => if isStale k p then if k.required then none else some none else some (some k)

def dropStale? (s : Scanner) : Option Scanner :=
  match fresh? s.place s.keyStart, s.outerStarts.mapM (fresh? s.place) with
  | some k, some ks => some { s with keyStart := k, outerStarts := ks }
  | _, _ => none

/-- Ends the block collections that are indented further than a column. -/
def unroll (column : Option Nat) (s : Scanner) : Scanner :=
  if s.inFlow then s
  else
    let open' := s.indents.takeWhile fun i => column.all (· < i)
    { s with tokens := s.tokens ++ open'.map (fun _ => .blockEnd), indents := s.indents.drop open'.length }

/-- Starts a block collection at a column, if it is indented further than the
innermost one. Its token comes after the first `position` tokens. -/
def roll (column position : Nat) (t : Token) (s : Scanner) : Scanner :=
  if s.inFlow || s.indents.head?.any (column ≤ ·) then s
  else
    { s with
      indents := column :: s.indents
      tokens := s.tokens.take position ++ t :: s.tokens.drop position }

/-- Passes blanks, comments and empty lines; `fuel` bounds their number. A tab
may not stand where a key may start. -/
def skipSpace : Nat → Scanner → Scanner
  | 0, s => s
  | fuel + 1, s =>
    let p := if s.place.index = 0 && s.place.has 0 '\ufeff' then s.place.skip 1 else s.place
    let tabs := s.inFlow || !s.keyAllowed
    let p := p.skipWhile fun c => c == ' ' || (tabs && c == '\t')
    let p := if p.has 0 '#' then p.skipLine else p
    if p.breakLength = 0 then { s with place := p }
    else skipSpace fuel { s with place := p.skipBreak, keyAllowed := s.keyAllowed || !s.inFlow }

/-- The characters of anchors and handles. -/
def isNameChar (c : Char) : Bool := c.isAlphanum || c == '_' || c == '-'

/-- Whether a name may end here. -/
def endsName (p : Place) : Bool :=
  p.endsWord 0 || (p.look 0).any fun c => "?:,]\x7d%@\x60".toList.contains c

/-- The name after `*` or `&`. -/
def name? (p : Place) : Option (Text × Place) :=
  let (name, q) := (p.skip 1).takeWhile isNameChar
  if name.isEmpty || !endsName q then none else some (name, q)

/-- The characters of a tag. -/
def isTagChar (full : Bool) (c : Char) : Bool :=
  isNameChar c || ";/?:@&=+$.%!~*'()".toList.contains c || (full && ",[]".toList.contains c)

/-- The number of octets of a character in UTF-8, by the first of them. -/
def octetCount? (first : Nat) : Option Nat :=
  if first < 0x80 then some 1
  else if first < 0xc0 then none
  else if first < 0xe0 then some 2
  else if first < 0xf0 then some 3
  else if first < 0xf8 then some 4
  else none

/-- The octets of a tag, in which a percent sign comes before an octet in
hexadecimal digits. `pending` octets are to come for the character before. -/
def octets? (pending : Nat) : Text → Option Text
  | [] => if pending = 0 then some [] else none
  | '%' :: a :: b :: s =>
    let octet := Scalar.hexValue [a, b]
    let after :=
      if !Scalar.isHexDigit a || !Scalar.isHexDigit b then none
      else if pending = 0 then (octetCount? octet).map (· - 1)
      else if 0x80 ≤ octet && octet < 0xc0 then some (pending - 1)
      else none
    after.bind fun n => (octets? n s).map (Char.ofNat octet :: ·)
  | c :: s => if c == '%' || pending != 0 then none else (octets? 0 s).map (c :: ·)

/-- The text of a tag. -/
def tagText? (full : Bool) (p : Place) : Option (Text × Place) :=
  let (t, q) := p.takeWhile (isTagChar full)
  (octets? 0 t).map fun octets => (octets, q)

/-- The handle and the suffix of a tag, and the place after it. -/
def tag? (p : Place) : Option (Text × Text × Place) :=
  if p.has 1 '<' then
    match tagText? true (p.skip 2) with
    | some (suffix, q) => if suffix.isEmpty || !q.has 0 '>' then none else some ([], suffix, q.skip 1)
    | none => none
  else
    let (name, q) := (p.skip 1).takeWhile isNameChar
    if q.has 0 '!' then
      match tagText? false (q.skip 1) with
      | some (suffix, r) => if suffix.isEmpty then none else some ('!' :: name ++ ['!'], suffix, r)
      | none => none
    else
      match tagText? false q with
      | some (more, r) =>
        let suffix := name ++ more
        if suffix.isEmpty then some ([], ['!'], r) else some (['!'], suffix, r)
      | none => none

/-- A number of a version, of nine digits at most. -/
def versionNumber? (p : Place) : Option (Nat × Place) :=
  let (digits, q) := p.takeWhile Char.isDigit
  if digits.isEmpty || 9 < digits.length then none else some (Text.digitsValue digits, q)

/-- The version after the name of a version directive. -/
def version? (p : Place) : Option (Token × Place) :=
  match versionNumber? (p.skipWhile isBlank) with
  | none => none
  | some (major, q) =>
    if q.has 0 '.' then
      (versionNumber? (q.skip 1)).map fun (minor, r) => (.versionDirective major minor, r)
    else none

/-- The handle and the meaning after the name of a tag directive. -/
def tagMeaning? (p : Place) : Option (Token × Place) :=
  let q := p.skipWhile isBlank
  if !q.has 0 '!' then none
  else
    let (name, r) := (q.skip 1).takeWhile isNameChar
    let handle := '!' :: name ++ if r.has 0 '!' then ['!'] else []
    let r := if r.has 0 '!' then r.skip 1 else r
    if (!name.isEmpty && handle.length = name.length + 1) || !(r.look 0).any isBlank then none
    else
      match tagText? true (r.skipWhile isBlank) with
      | some (meaning, e) =>
        if meaning.isEmpty || !e.endsWord 0 then none else some (.tagDirective handle meaning, e)
      | none => none

/-- A directive, from its percent sign to the end of its line. -/
def directive? (p : Place) : Option (Token × Place) :=
  let (name, q) := (p.skip 1).takeWhile isNameChar
  let found :=
    if !q.endsWord 0 then none
    else if name == "YAML".toList then version? q
    else if name == "TAG".toList then tagMeaning? q
    else none
  match found with
  | none => none
  | some (t, r) =>
    let r := r.skipWhile isBlank
    let r := if r.has 0 '#' then r.skipLine else r
    if r.atLineEnd then some (t, r.skipBreak) else none

/-- Whether a plain scalar starts here. -/
def startsPlain (inFlow : Bool) (p : Place) : Bool :=
  match p.look 0 with
  | none => false
  | some c =>
    let marked := isBlankOrBreak c || "-?:,[]\x7b\x7d#&*!|>'\"%@\x60".toList.contains c
    !marked || (c == '-' && !(p.look 1).any isBlank) ||
      (!inFlow && (c == '?' || c == ':') && !p.endsWord 1)

/-- Reads a token in whose place a key may start. -/
def keyToken? (s : Scanner) (read : Place → Option (Token × Place)) : Option Scanner :=
  match s.noteKey?, read s.place with
  | some d, some (t, p) => some ({ d with keyAllowed := false }.emit t p)
  | _, _ => none

/-- Ends all block collections and starts or ends a document. -/
def documentToken? (s : Scanner) (t : Token) (p : Place) : Option Scanner :=
  (s.unroll none).dropKey?.map fun d => { d with keyAllowed := false }.emit t p

def openFlow? (s : Scanner) (t : Token) : Option Scanner :=
  s.noteKey?.map fun d =>
    { d with keyAllowed := true, keyStart := none, outerStarts := d.keyStart :: d.outerStarts }.emit t
      (s.place.skip 1)

def closeFlow? (s : Scanner) (t : Token) : Option Scanner :=
  s.dropKey?.map fun d =>
    { d with
      keyAllowed := false
      keyStart := d.outerStarts.headD none
      outerStarts := d.outerStarts.tail }.emit t (s.place.skip 1)

def flowComma? (s : Scanner) : Option Scanner :=
  s.dropKey?.map fun d => { d with keyAllowed := true }.emit .flowEntry (s.place.skip 1)

/-- Reads the mark of an entry or of a key, which starts a block collection where
none is open at its column. -/
def blockMark? (s : Scanner) (collection t : Token) (keyAfter : Bool) : Option Scanner :=
  if !s.inFlow && !s.keyAllowed then none
  else
    (s.roll s.place.column s.tokens.length collection).dropKey?.map fun d =>
      { d with keyAllowed := keyAfter }.emit t (s.place.skip 1)

/-- Reads the colon after a key. -/
def value? (s : Scanner) : Option Scanner :=
  match s.keyStart with
  | some k =>
    let marked := { s with
      tokens := s.tokens.take k.position ++ Token.key :: s.tokens.drop k.position
      keyStart := none
      keyAllowed := false }
    some ((marked.roll k.place.column k.position .blockMappingStart).emit .value (s.place.skip 1))
  | none =>
    if s.inFlow then some ({ s with keyAllowed := false }.emit .value (s.place.skip 1))
    else if !s.keyAllowed then none
    else
      some ((s.roll s.place.column s.tokens.length .blockMappingStart).emit .value (s.place.skip 1))

def block? (s : Scanner) (literal : Bool) : Option Scanner :=
  match s.dropKey?, Scalar.block? literal s.indents.head? s.place with
  | some d, some (scalar, p) => some ({ d with keyAllowed := true }.emit (.scalar scalar) p)
  | _, _ => none

def plain? (s : Scanner) : Option Scanner :=
  let indent := (s.indents.head?.map (· + 1)).getD 0
  match s.noteKey?, Scalar.plain? s.inFlow indent s.place with
  | some d, some (scalar, crossed, p) => some ({ d with keyAllowed := crossed }.emit (.scalar scalar) p)
  | _, _ => none

/-- Reads the token that starts here with character `c`. -/
def read? (s : Scanner) (c : Char) : Option Scanner :=
  let p := s.place
  let ends := s.inFlow || p.endsWord 1
  if p.column = 0 && c == '%' then
    match directive? p with
    | some (t, q) => s.documentToken? t q
    | none => none
  else if p.atDocumentMark then
    s.documentToken? (if c == '-' then .documentStart else .documentEnd) (p.skip 3)
  else if c == '[' then s.openFlow? .flowSequenceStart
  else if c == '\x7b' then s.openFlow? .flowMappingStart
  else if c == ']' then s.closeFlow? .flowSequenceEnd
  else if c == '\x7d' then s.closeFlow? .flowMappingEnd
  else if c == ',' then s.flowComma?
  else if c == '-' && p.endsWord 1 then s.blockMark? .blockSequenceStart .blockEntry true
  else if c == '?' && ends then s.blockMark? .blockMappingStart .key (!s.inFlow)
  else if c == ':' && ends then s.value?
  else if c == '*' then s.keyToken? fun q => (name? q).map fun (n, r) => (.alias n, r)
  else if c == '&' then s.keyToken? fun q => (name? q).map fun (n, r) => (.anchor n, r)
  else if c == '!' then
    s.keyToken? fun q => (tag? q).bind fun (handle, suffix, r) =>
      if r.endsWord 0 || (s.inFlow && r.has 0 ',') then some (.tag handle suffix, r) else none
  else if (c == '|' || c == '>') && !s.inFlow then s.block? (c == '|')
  else if c == '\'' || c == '"' then
    s.keyToken? fun q => (Scalar.quoted? (c == '\'') q).map fun (v, r) => (.scalar v, r)
  else if startsPlain s.inFlow p then s.plain?
  else none

/-- Reads the next token; at the end, ends what is open. -/
def next? (s : Scanner) : Option (Scanner × Bool) :=
  match (skipSpace (s.place.rest.length + 1) s).dropStale? with
  | none => none
  | some s =>
    let s := s.unroll (some s.place.column)
    match s.place.rest with
    | [] => (s.unroll none).dropKey?.map fun d => (d, true)
    | c :: _ => (s.read? c).map fun d => (d, false)

/-- Reads tokens to the end; `fuel` bounds their number. -/
def run? : Nat → Scanner → Option (List Token)
  | 0, _ => none
  | fuel + 1, s =>
    match s.next? with
    | none => none
    | some (d, true) => some d.tokens
    | some (d, false) => run? fuel d

end Scanner

/-- The tokens of a text, if it is made of tokens. -/
def Token.scan? (s : Text) : Option (List Token) :=
  if s.all isPrintable then Scanner.run? (s.length + 1) (.start s) else none

end QuartoPretext.Yaml
