/-
# Converting a document

Blocks are read one after the other, and their pieces are carried out. The
bodies in the pieces of a block are smaller than the lines of the block, so
that conversion ends. What has been written is wrapped in the root element.

Key definitions: `convertLines`, `runPieces`, `Conversion`, `convert`.
-/
import QuartoPretext.Document.Session
import QuartoPretext.Document.Size

namespace QuartoPretext

open Markup

mutual

/-- Carries out a piece. -/
def runPiece (set : Setting) (ctx : Inline.Context) : Piece → Session → Except Fault Session
  | .element tag content, s =>
    match runPieces set ctx content (s.openTag tag) with
    | .ok s => .ok s.close
    | .error f => .error f
  | .blocks context ls, s => convertLines set ctx context ls s
  | p, s => s.write ctx set.profile.kind p
termination_by p => (p.weight, 1 + sizeOf p)
decreasing_by
  · simp only [Piece.weight]
    apply Prod.Lex.right
    rw [Piece.element.sizeOf_spec]
    omega
  · simp only [Piece.weight]
    apply Prod.Lex.right
    omega

/-- Carries out pieces in order. -/
def runPieces (set : Setting) (ctx : Inline.Context) : List Piece → Session → Except Fault Session
  | [], s => .ok s
  | p :: ps, s =>
    match runPiece set ctx p s with
    | .ok s => runPieces set ctx ps s
    | .error f => .error f
termination_by ps => (Piece.weightOf ps, 1 + sizeOf ps)
decreasing_by
  · rw [Prod.lex_def]
    simp only [Piece.weightOf, List.cons.sizeOf_spec]
    omega
  · rw [Prod.lex_def]
    simp only [Piece.weightOf, List.cons.sizeOf_spec]
    omega

/-- Converts the blocks of some lines. -/
def convertLines (set : Setting) (ctx : Inline.Context) (context : Context) :
    List Line → Session → Except Fault Session
  | [], s => .ok s
  | l :: following, s =>
    match _h : Block.read l following with
    | .error f => .error f
    | .ok (b, rest) =>
      match runPieces set ctx (Plan.ofBlock set context s.exerciseCount b)
          { s with line := some b.line } with
      | .ok s => convertLines set ctx context rest s
      | .error f => .error f
termination_by ls => (Line.totalSize ls, 0)
decreasing_by
  · apply Prod.Lex.left
    have hb : ∀ body ∈ b.bodies, Line.totalSize body ≤ Line.totalSize (l :: following) - 1 := by
      intro body hm
      have := Block.totalSize_body _h hm
      omega
    have h1 : Piece.weightOf (Plan.ofBlock set context s.exerciseCount b) ≤ _ :=
      Plan.weightOf_ofBlock hb
    have h2 := Block.totalSize_rest _h
    omega
  · exact Prod.Lex.left _ _ (Block.totalSize_rest _h)

end

/-- A converted document. -/
structure Conversion where
  xml : Text
  rootId : Text
  title : Option Text
  warnings : List Warning
  deriving Repr, DecidableEq

namespace Conversion

/-- The first line of every document. -/
def declaration : Text := "<?xml version=\"1.0\" encoding=\"UTF-8\"?>\n".toList

/-- The name space of inclusions. -/
def inclusionSpace : Text := "http://www.w3.org/2001/XInclude".toList

def rootElement : DocumentKind → Element
  | .chapter => .chapter
  | .exercises => .exercises

/-- Warns about the solutions of exercises that never came. -/
def unusedSolutions (set : Setting) (s : Session) : Session :=
  match set.profile.kind, set.solutions with
  | .exercises, some book =>
    (book.numbers.filter (s.exerciseCount < ·)).foldl
      (fun s n => s.warn s.line (.unusedSolution n)) s
  | _, _ => s

/-- The title of the root: of the profile, of the first level-1 heading, or of
the front matter. -/
def rootTitle (set : Setting) (ctx : Inline.Context) (s : Session) : Option Text × Session :=
  let transformed (text : Text) : Option Text × Session :=
    let (xml, s) := s.inline ctx text
    (some xml, s)
  match set.profile.title, s.heading, s.frontMatter.title with
  | some text, _, _ => transformed text
  | none, some h, _ => (some h.xml, s)
  | none, none, some text => transformed text
  | none, none, none => (none, s)

/-- The identifier of the root: of the profile, of the first level-1 heading, of
the front matter, or else made from the source or the title. -/
def settledId (set : Setting) (s : Session) : Text :=
  let given := [set.profile.rootId, s.heading.bind (·.id), s.frontMatter.id]
  let titles := [set.profile.title, s.heading.map (·.text), s.frontMatter.title]
  (given.findSome? id).getD (set.profile.derivedId (titles.findSome? id))

/-- The events of a whole document. -/
def events (kind : DocumentKind) (rootId : Text) (title : Option Text) (usesInclusion : Bool)
    (body : List Event) : List Event :=
  let inclusion := if usesInclusion then [(AttributeName.inclusionSpace, inclusionSpace)] else []
  .startTag ⟨rootElement kind, (.id, rootId) :: inclusion⟩ ::
    (title.map fun t => Event.leaf (.plain .title) t).toList ++ body ++ [.endTag (rootElement kind)]

/-- Wraps up a document after its last block. -/
def ofSession (set : Setting) (ctx : Inline.Context) (s : Session) : Conversion :=
  let s := unusedSolutions set (s.closeTo 0)
  let (title, s) := rootTitle set ctx s
  let id := settledId set s
  { xml := declaration ++ render 0 (events set.profile.kind id title s.usesInclusion s.writer.finish)
    rootId := id
    title := title
    warnings := s.warnings }

end Conversion

/-- Converts the text of a document. -/
def convert (set : Setting) (input : Text) : Except Fault Conversion :=
  let lines := Line.ofText input
  let ctx := Inline.Context.of set.profile (Footnotes.collect lines)
  match convertLines set ctx .document lines .start with
  | .ok s => .ok (Conversion.ofSession set ctx s)
  | .error f => .error f

end QuartoPretext
