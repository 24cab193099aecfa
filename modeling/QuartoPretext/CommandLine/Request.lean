/-
# What a run is asked to do

Key definitions: `Verb`, `Request`.
-/
import QuartoPretext.Profile

namespace QuartoPretext

inductive Verb
  | convert
  /-- convert without writing -/
  | check
  deriving Repr, DecidableEq

namespace Verb

def all : List Verb := [convert, check]

def name : Verb → String
  | convert => "convert"
  | check => "check"

end Verb

structure Request where
  verb : Verb
  inputs : List Text
  kind : DocumentKind
  /-- the identifier of the root -/
  id : Option Text
  /-- the path of a file of solutions -/
  solutions : Option Text
  imageDir : Option Text
  codeBlocks : Option CodeBlockPolicy
  citations : Option CitationPolicy
  /-- the path of a file of settings -/
  config : Option Text
  /-- the path that is written to: of a file, or of a directory -/
  output : Option Text
  denyWarnings : Bool
  verbose : Bool
  deriving Repr, DecidableEq

/-- A request without inputs or options. -/
def Request.plain (verb : Verb) : Request :=
  ⟨verb, [], .chapter, none, none, none, none, none, none, none, false, false⟩

end QuartoPretext
