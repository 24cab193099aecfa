/-
# What blocks become

`Plan.ofBlock` turns a block into pieces, by the settings of the document, the
place of the block and the number of exercises before it.

Key definitions: `Setting`, `Plan.ofBlock`, `Plan.ofDiv`, `Plan.ofList`,
`Plan.ofExercises`, `Plan.ofFence`.
-/
import QuartoPretext.Block.Reader
import QuartoPretext.Document.DisplayMath
import QuartoPretext.Document.Div
import QuartoPretext.Document.Piece
import QuartoPretext.Fence.Metadata
import QuartoPretext.Path
import QuartoPretext.Solutions

namespace QuartoPretext

/-- What a conversion depends on besides the document. -/
structure Setting where
  profile : Profile
  solutions : Option SolutionBook
  deriving Repr, DecidableEq

namespace Plan

open Text Markup

def plainElement (e : Element) (content : List Piece) : Piece := .element (.plain e) content

def inlineLeaf (e : Element) (text : Text) : Piece := .leaf (.plain e) (.inline text)

def titleLeaf (text : Text) : Piece := inlineLeaf .title text

/-- Whether a text is a percentage: a number that fits in 32 bits and a percent
sign. -/
def isPercentage (s : Text) : Bool :=
  match dropSuffix? ['%'] s with
  | none => false
  | some number => (toNat? ((dropPrefix? ['+'] number).getD number)).any (· < 0x100000000)

/-- The width of a figure: the given one, if it is a percentage. -/
def width (p : Profile) (given : Option Text) : Text :=
  ((given.map trim).filter isPercentage).getD p.figureWidth

/-- What identifiers of tables start with. -/
def tableStem : Text := "tbl-".toList

def figureStem : Text := "fig-".toList

/-- An image with its description. -/
def image (source width : Text) (alt : Option Text) : Piece :=
  let tag : Tag := ⟨.image, [(.source, source), (.width, width)]⟩
  match alt with
  | some text => .element tag [inlineLeaf .shortdescription text]
  | none => .empty tag

/-- A figure with its caption, or a table with its title. -/
def figure (id : Option Text) (caption source width : Text) (alt : Option Text) : Piece :=
  let isTable := id.any tableStem.isPrefixOf
  .element (.withId (if isTable then .table else .figure) id)
    [inlineLeaf (if isTable then .title else .caption) caption, image source width alt]

/-- A program listing. -/
def program (language : Option Text) (code : List Line) : Piece :=
  .element ⟨.program, (language.map fun l => (.language, l)).toList⟩ [.code (code.map (·.text))]

/-- The figure that a chunk makes, by its label. -/
def chunkFigure (p : Profile) (label : Text) (m : Metadata) : Piece :=
  let captions :=
    if tableStem.isPrefixOf label then ["tbl-cap", "fig-cap"] else ["fig-cap", "tbl-cap"]
  let caption := (captions.findSome? fun key => m.get? key.toList).getD []
  let dir := (p.imageDir.reverse.dropWhile (· == '/')).reverse
  figure (some label) caption (dir ++ '/' :: label ++ "-1.png".toList)
    (width p (m.get? "out-width".toList)) (m.get? "fig-alt".toList)

/-- The metadata of a chunk: directives, then the options of its header, in
which full stops stand for hyphens, then its label. -/
def chunkMetadata (f : CodeFence) (body : List Line) : Metadata :=
  let m := f.attrs.values.entries.foldl
    (fun (m : Metadata) e => m.setDefault (replaceChar '.' ['-'] e.1) e.2) (Metadata.ofBody body)
  match f.label with
  | some label => m.setDefault "label".toList label
  | none => m

/-- Whether the code of a chunk may be listed. -/
def isEchoed (m : Metadata) : Bool :=
  !(m.get? "echo".toList).any fun v => lowerAscii v == "false".toList

/-- A chunk with its metadata: a figure by its label, or as the policy says. -/
def ofChunk (p : Profile) (f : CodeFence) (body : List Line) (m : Metadata) : List Piece :=
  match (m.get? "label".toList).filter fun l => figureStem.isPrefixOf l || tableStem.isPrefixOf l with
  | some label => [chunkFigure p label m]
  | none =>
    if p.codeBlocks = .listing && isEchoed m then [program f.language (Metadata.code body)] else []

def ofFence (p : Profile) (f : CodeFence) (body : List Line) : List Piece :=
  if !f.executable then [program f.language body]
  else
    let m := chunkMetadata f body
    if m.included then ofChunk p f body m else []

/-- A part of a container: an element of some chunks, unless all are blank. -/
def part (e : Element) (chunks : List (List Line)) : List Piece :=
  if chunks.all fun c => c.all Line.isBlank then []
  else [plainElement e (chunks.map (.blocks .container))]

/-- The title that a body starts with, and the rest of the body. -/
def titled (body : List Line) : List Piece × List Line :=
  match Div.leadingHeading? body with
  | some (title, rest) => ([titleLeaf title], rest)
  | none => ([], body)

def callout (attrs : Attributes) (body : List Line) : Piece :=
  let (title, rest) :=
    match attrs.get? "title".toList with
    | some text => ([titleLeaf text], body)
    | none => titled body
  .element (.withId .note attrs.id) (title ++ [.blocks .container rest])

def important (attrs : Attributes) (body : List Line) : Piece :=
  .element (.withId .assemblage attrs.id)
    (match Div.promoteTitle? body with
    | some (title, rest) => [titleLeaf title, .blocks .container rest]
    | none => [.blocks .container body])

/-- Whether a line is a rule that separates a statement from its solution. -/
def isSeparator (l : Line) (div : Option DivFence) : Bool :=
  div.isNone && classify l [] == .rule

/-- A worked example: its solution comes after a rule. -/
def workedExample (attrs : Attributes) (body : List Line) : Piece :=
  let (title, rest) := titled body
  .element (.withId .example' attrs.id)
    (title ++
      match Div.splitTop? isSeparator 0 none rest with
      | some (before, _, after) =>
        part .statement [before] ++ part .solution [Div.withoutSolutionHeading after]
      | none => [.blocks .container rest])

def isCallout (_ : Line) : Option DivFence → Bool
  | some (.opening _ _ attrs) => attrs.classes.any Div.calloutStem.isPrefixOf
  | _ => false

def isClose (_ : Line) : Option DivFence → Bool
  | some (.closing _) => true
  | _ => false

/-- Whether a line is a heading that only announces a solution. -/
def isSolutionHeading (l : Line) (div : Option DivFence) : Bool :=
  div.isNone && (BlockStart.heading? (trim l.text)).any fun h => Div.isSolutionTitle h.2

/-- Statement and solution of an exercise: the solution is in a callout and after
it, or after a heading. -/
def exerciseParts (body : List Line) : List Piece :=
  match Div.splitTop? isCallout 0 none body with
  | some (before, _, rest) =>
    let (inside, after) :=
      match Div.splitTop? isClose 0 none rest with
      | some (inside, _, after) => (inside, after)
      | none => (rest, [])
    part .statement [before] ++ part .solution [Div.withoutSolutionHeading inside, after]
  | none =>
    match Div.splitTop? isSolutionHeading 0 none body with
    | some (before, _, after) => part .statement [before] ++ part .solution [after]
    | none => part .statement [body]

/-- An exercise. A heading it starts with is its title, unless it only announces
a solution. -/
def exercise (attrs : Attributes) (body : List Line) : Piece :=
  let (title, rest) :=
    match Div.leadingHeading? body with
    | some (text, rest) => if Div.isSolutionTitle text then ([], body) else ([titleLeaf text], rest)
    | none => ([], body)
  .element (.withId .exercise attrs.id) (title ++ exerciseParts rest)

def ofDiv (p : Profile) (context : Context) (line : Nat) (label : Text) (attrs : Attributes)
    (body : List Line) : List Piece :=
  match Div.kind p attrs with
  | .skipped => []
  | .transparent => [.blocks context body]
  | .unknown => [.warn line (.unknownDiv label), .blocks context body]
  | .data =>
    [.element (.withId .note attrs.id)
      [.leaf (.plain .title) (.markup "Data".toList), .blocks .container body]]
  | .introduction => [.element (.withId .introduction attrs.id) [.blocks .container body]]
  | .callout => [callout attrs body]
  | .important => [important attrs body]
  | .workedExample => [workedExample attrs body]
  | .exercise => [exercise attrs body]

/-- Display math in a paragraph of its own. -/
def ofMath (rows : List Text) (id : Option Text) : List Piece :=
  match DisplayMath.ofRows? rows with
  | none => []
  | some (.single tex) =>
    [plainElement .p [.leaf (.withId .me id) (.markup (escapeContent tex))]]
  | some (.rows rs) =>
    [plainElement .p [.element (.withId .md id)
      (rs.map fun r => .leaf (.plain .mrow) (.markup (escapeContent r)))]]

/-- The warning that a marker of another style ended a list. -/
def interruption (l : ListBlock) : List Piece :=
  (l.interruptedAt.map fun n => .warn n .mixedMarkers).toList

/-- The element of a list; letters are its only marker. -/
def listTag : ListStyle → Tag
  | .unordered => .plain .ul
  | .ordered => .plain .ol
  | .lettered => ⟨.ol, [(.marker, "a.".toList)]⟩

/-- A list, which stands in a paragraph. -/
def ofList (l : ListBlock) : List Piece :=
  interruption l ++
    [plainElement .p [.element (listTag l.style)
      (l.items.map fun i => plainElement .li [.blocks .container i.body])]]

/-- The solution of an exercise, by parts if it has any. -/
def solution (text : Text) : Piece :=
  plainElement .solution
    (match Solution.parts? text with
    | some parts =>
      [plainElement .p [.element (listTag .lettered)
        (parts.map fun part => plainElement .li [inlineLeaf .p part])]]
    | none => [inlineLeaf .p text])

/-- The solution of an exercise in a book, or a warning that it is missing. -/
def solutionOf (book : Option SolutionBook) (number line : Nat) : List Piece :=
  match book with
  | none => []
  | some b =>
    match b.get? number with
    | some text => [solution text]
    | none => if b.expects number then [.warn line (.missingSolution number)] else []

/-- The title of an exercise and the lines after it: strong text that the first
line starts with. -/
def promotedItem (i : ListItem) : List Piece × List Line :=
  match i.body with
  | [] => ([], [])
  | first :: more =>
    match if ['*', '*'].isPrefixOf first.text then Div.strongTitle? first.text else none with
    | some (title, rest) => ([titleLeaf title], ⟨i.line, rest⟩ :: more)
    | none => ([], first :: more)

/-- An item of an exercise set. -/
def exerciseItem (book : Option SolutionBook) (number : Nat) (i : ListItem) : List Piece :=
  let (title, body) := promotedItem i
  [.countExercise,
    plainElement .exercise (title ++ part .statement [body] ++ solutionOf book number i.line)]

/-- Items of an exercise set, after `count` exercises. -/
def exerciseItems (book : Option SolutionBook) (count : Nat) : List ListItem → List Piece
  | [] => []
  | i :: rest => exerciseItem book (count + 1) i ++ exerciseItems book (count + 1) rest

/-- A list in the body of an exercise set: numbered items are exercises. -/
def ofExercises (book : Option SolutionBook) (count : Nat) (l : ListBlock) : List Piece :=
  if l.style = .ordered then interruption l ++ exerciseItems book count l.items else ofList l

/-- The pieces of a block after `count` exercises. -/
def ofBlock (s : Setting) (context : Context) (count : Nat) : Block → List Piece
  | .heading line level title attrs =>
    match context with
    | .document => [.heading line level title attrs.id]
    | .container => [.leaf (.plain .p) (.alert title)]
  | .frontMatter line yaml => [.frontMatter line yaml]
  | .fence _ f body => ofFence s.profile f body
  | .div line label attrs body => ofDiv s.profile context line label attrs body
  | .displayMath _ rows id trailing => ofMath rows id ++ (trailing.map .paragraph).toList
  | .inclusion _ path => [.inclusion (Path.withExtension "ptx".toList path)]
  | .image _ caption source attrs =>
    [figure attrs.id caption source
      (width s.profile ((attrs.get? "width".toList).orElse fun _ => attrs.get? "out-width".toList))
      (attrs.get? "fig-alt".toList)]
  | .list l =>
    if s.profile.kind = .exercises && context = .document then ofExercises s.solutions count l
    else ofList l
  | .paragraph _ text => [.paragraph text]
  | .skipped .. => []

end Plan
end QuartoPretext
