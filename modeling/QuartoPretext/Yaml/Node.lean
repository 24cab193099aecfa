/-
# YAML nodes

A document is a tree of scalars, sequences and mappings. An alias stays an
alias; the anchors of the document say what it stands for.

Key definitions: `Node`, `Anchors`, `NodeReader`, `Document`,
`Document.ofTokens?`, `Document.parse?`.
-/
import QuartoPretext.Assoc
import QuartoPretext.Yaml.Token

namespace QuartoPretext.Yaml

inductive Node
  | scalar (s : Scalar) (tag : Option Text)
  | sequence (items : List Node)
  | mapping (entries : List (Node × Node))
  /-- an alias of the node with a number -/
  | alias (number : Nat)
  deriving Repr

/-- What an anchor stands at: a scalar with its tag, or a collection. -/
abbrev Anchored := Option (Scalar × Option Text)

/-- The anchors so far: the number of each name, and the node of each number. -/
structure Anchors where
  numbers : Assoc Text Nat
  nodes : Assoc Nat Anchored
  deriving Repr

namespace Anchors

def none : Anchors := ⟨.empty, .empty⟩

/-- Notes an anchor. Its number is the count of the names before it, so a name
that comes again shares its number with the next new name. -/
def note (t : Anchors) (name : Text) (a : Anchored) : Anchors :=
  ⟨t.numbers.insert name t.numbers.size, t.nodes.insert t.numbers.size a⟩

/-- The scalar that a node is or stands for. -/
def scalar? (t : Anchors) : Node → Option (Scalar × Option Text)
  | .scalar s tag => some (s, tag)
  | .alias n => (t.nodes.get? n).bind id
  | _ => Option.none

end Anchors

/-- The tokens that are left, the anchors so far, and the meanings of handles. -/
structure NodeReader where
  tokens : List Token
  anchors : Anchors
  handles : List (Text × Text)

namespace NodeReader

def peek? (r : NodeReader) : Option Token := r.tokens.head?

def skip (r : NodeReader) : NodeReader := { r with tokens := r.tokens.tail }

def isAt (r : NodeReader) (t : Token) : Bool := r.peek? == some t

/-- A scalar that is not written out. -/
def nothing : Node := .scalar ⟨[], true⟩ none

/-- The full text of a tag. -/
def resolve? (r : NodeReader) (handle suffix : Text) : Option Text :=
  if handle.isEmpty then some suffix else (r.handles.lookup handle).map (· ++ suffix)

/-- The anchor that stands here. -/
def anchor (r : NodeReader) : Option Text × NodeReader :=
  match r.peek? with
  | some (.anchor name) => (some name, r.skip)
  | _ => (none, r)

/-- The tag that stands here. -/
def tag? (r : NodeReader) : Option (Option Text × NodeReader) :=
  match r.peek? with
  | some (.tag handle suffix) => (r.resolve? handle suffix).map fun t => (some t, r.skip)
  | _ => some (none, r)

/-- The anchor and the tag of a node, in either order. -/
def properties? (r : NodeReader) : Option (Option Text × Option Text × NodeReader) :=
  match r.anchor with
  | (some name, q) => q.tag?.map fun (t, e) => (some name, t, e)
  | (none, _) => r.tag?.map fun (t, q) => (q.anchor.1, t, q.anchor.2)

/-- Notes what an anchor stands at. -/
def note (r : NodeReader) (anchor : Option Text) (a : Anchored) : NodeReader :=
  match anchor with
  | some name => { r with anchors := r.anchors.note name a }
  | none => r

/-- The tag of a scalar that is written out. A tag that is not specific is none. -/
def specific (tag : Option Text) : Option Text := tag.filter (· != ['!'])

/-- Where a node stands: what may make it up and what ends it without content. -/
inductive Position
  /-- an entry of a block sequence or a whole document -/
  | block
  /-- a key or a value of a block mapping -/
  | blockEntry
  | flow
  deriving Repr, DecidableEq

/-- Whether a token ends the part of a block mapping that it stands for. -/
def endsPart (t : Option Token) : Bool :=
  t == some .key || t == some .value || t == some .blockEnd

/-- Whether a token ends the part of a flow collection that it stands for. -/
def endsFlowPart (close : Token) (t : Option Token) : Bool :=
  t == some .value || t == some .flowEntry || t == some close

mutual

/-- Reads a node; `fuel` bounds the nodes and entries. -/
def node? : Nat → Position → NodeReader → Option (Node × NodeReader)
  | 0, _, _ => none
  | fuel + 1, pos, r =>
    match r.peek? with
    | some (.alias name) =>
      (r.anchors.numbers.get? name).map fun n => (.alias n, r.skip)
    | _ =>
      match r.properties? with
      | none => none
      | some (name, tag, r) =>
        match r.peek? with
        | some .blockEntry =>
          if pos = .blockEntry then
            (sequence? fuel false (r.note name none)).map fun (ns, q) => (.sequence ns, q)
          else bare? name tag r
        | some (.scalar s) =>
          some (.scalar s (specific tag), (r.note name (some (s, specific tag))).skip)
        | some .flowSequenceStart =>
          (flowSequence? fuel true (r.note name none).skip).map fun (ns, q) => (.sequence ns, q)
        | some .flowMappingStart =>
          (flowMapping? fuel true (r.note name none).skip).map fun (es, q) => (.mapping es, q)
        | some .blockSequenceStart =>
          if pos = .flow then bare? name tag r
          else (sequence? fuel true (r.note name none).skip).map fun (ns, q) => (.sequence ns, q)
        | some .blockMappingStart =>
          if pos = .flow then bare? name tag r
          else (mapping? fuel (r.note name none).skip).map fun (es, q) => (.mapping es, q)
        | _ => bare? name tag r

/-- A node of nothing but an anchor or a tag. -/
def bare? (name tag : Option Text) (r : NodeReader) : Option (Node × NodeReader) :=
  if name.isSome || tag.isSome then some (.scalar ⟨[], true⟩ tag, r.note name (some (⟨[], true⟩, tag)))
  else none

/-- Reads the entries of a block sequence. One that is indented has an end; one
at the indentation of its key ends where no entry follows. -/
def sequence? : Nat → Bool → NodeReader → Option (List Node × NodeReader)
  | 0, _, _ => none
  | fuel + 1, indented, r =>
    if r.isAt .blockEntry then
      let r := r.skip
      let empty := r.isAt .blockEntry || r.isAt .blockEnd ||
        (!indented && (r.isAt .key || r.isAt .value))
      match if empty then some (nothing, r) else node? fuel .block r with
      | none => none
      | some (n, q) => (sequence? fuel indented q).map fun (ns, e) => (n :: ns, e)
    else if !indented then some ([], r)
    else if r.isAt .blockEnd then some ([], r.skip)
    else none

/-- Reads the entries of a block mapping. -/
def mapping? : Nat → NodeReader → Option (List (Node × Node) × NodeReader)
  | 0, _ => none
  | fuel + 1, r =>
    if r.isAt .blockEnd then some ([], r.skip)
    else
      let key :=
        if r.isAt .key then
          if endsPart r.skip.peek? then some (nothing, r.skip) else node? fuel .blockEntry r.skip
        else none
      match key with
      | none => none
      | some (k, r) =>
        let value :=
          if r.isAt .value then
            if endsPart r.skip.peek? then some (nothing, r.skip) else node? fuel .blockEntry r.skip
          else some (nothing, r)
        match value with
        | none => none
        | some (v, r) => (mapping? fuel r).map fun (es, e) => ((k, v) :: es, e)

/-- Reads the entries of a flow sequence up to its end. -/
def flowSequence? : Nat → Bool → NodeReader → Option (List Node × NodeReader)
  | 0, _, _ => none
  | fuel + 1, first, r =>
    if r.isAt .flowSequenceEnd then some ([], r.skip)
    else if !first && !r.isAt .flowEntry then none
    else
      let r := if first then r else r.skip
      if r.isAt .flowSequenceEnd then some ([], r.skip)
      else
        let item :=
          if r.isAt .key then
            (flowPair? fuel .flowSequenceEnd r).map fun (e, q) => (Node.mapping [e], q)
          else node? fuel .flow r
        match item with
        | none => none
        | some (n, q) => (flowSequence? fuel false q).map fun (ns, e) => (n :: ns, e)

/-- Reads the entries of a flow mapping up to its end. -/
def flowMapping? : Nat → Bool → NodeReader → Option (List (Node × Node) × NodeReader)
  | 0, _, _ => none
  | fuel + 1, first, r =>
    if r.isAt .flowMappingEnd then some ([], r.skip)
    else if !first && !r.isAt .flowEntry then none
    else
      let r := if first then r else r.skip
      if r.isAt .flowMappingEnd then some ([], r.skip)
      else
        match flowPair? fuel .flowMappingEnd r with
        | none => none
        | some (entry, q) => (flowMapping? fuel false q).map fun (es, e) => (entry :: es, e)

/-- Reads one entry of a flow mapping, up to what closes the collection. In a
sequence, the token after the mark of a key that is not written out is passed. -/
def flowPair? : Nat → Token → NodeReader → Option ((Node × Node) × NodeReader)
  | 0, _, _ => none
  | fuel + 1, close, r =>
    if !r.isAt .key then (node? fuel .flow r).map fun (k, q) => ((k, nothing), q)
    else
      let key :=
        if endsFlowPart close r.skip.peek? then
          some (nothing, if close = .flowSequenceEnd then r.skip.skip else r.skip)
        else node? fuel .flow r.skip
      match key with
      | none => none
      | some (k, r) =>
        if r.isAt .value then
          if r.skip.isAt .flowEntry || r.skip.isAt close then some ((k, nothing), r.skip)
          else (node? fuel .flow r.skip).map fun (v, q) => ((k, v), q)
        else some ((k, nothing), r)

end

end NodeReader

/-- The handles that have a meaning from the start. -/
def defaultHandles : List (Text × Text) :=
  [(['!'], ['!']), (['!', '!'], "tag:yaml.org,2002:".toList)]

/-- Takes in the directives of a document: whether a version is given, the
handles so far, and the tokens. -/
def directives? (versioned : Bool) (handles : List (Text × Text)) :
    List Token → Option (List (Text × Text) × List Token)
  | .versionDirective major minor :: rest =>
    if versioned || major != 1 || (minor != 1 && minor != 2) then none
    else directives? true handles rest
  | .tagDirective handle meaning :: rest =>
    if (handles.lookup handle).isSome then none
    else directives? versioned ((handle, meaning) :: handles) rest
  | rest => some (handles, rest)

/-- A text with one document at most. -/
inductive Document
  /-- nothing but comments -/
  | empty
  | node (n : Node) (anchors : Anchors)
  deriving Repr

/-- Whether a token ends a document that has no content. -/
def endsDocument : Option Token → Bool
  | none | some .documentStart | some .documentEnd => true
  | some (.versionDirective ..) | some (.tagDirective ..) => true
  | _ => false

/-- Reads the content of a document and the end of the text. -/
def content? (fuel : Nat) (explicit : Bool) (handles : List (Text × Text)) (ts : List Token) :
    Option Document :=
  let found :=
    if explicit && endsDocument ts.head? then some (NodeReader.nothing, ⟨ts, .none, handles⟩)
    else NodeReader.node? fuel .block ⟨ts, .none, handles⟩
  match found with
  | none => none
  | some (n, r) =>
    if (r.tokens.dropWhile (· == .documentEnd)).isEmpty then some (.node n r.anchors) else none

/-- Reads the only document of a text. -/
def Document.ofTokens? (ts : List Token) : Option Document :=
  let fuel := 4 * ts.length + 4
  match ts with
  | [] => some .empty
  | _ =>
    match directives? false [] ts with
    | none => none
    | some (handles, rest) =>
      let handles := handles ++ defaultHandles
      match rest with
      | .documentStart :: content => content? fuel true handles content
      | _ => if rest.length < ts.length then none else content? fuel false handles ts

/-- Reads a text with one document at most. -/
def Document.parse? (s : Text) : Option Document := (Token.scan? s).bind ofTokens?

end QuartoPretext.Yaml
