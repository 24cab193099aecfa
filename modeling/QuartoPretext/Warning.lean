/-
# Warnings

A warning reports something in a document that does not stop its conversion.
It names its cause, and the source line if one is known.

Key definitions: `Cause`, `Cause.kind`, `Cause.message`, `Warning`,
`Warning.display`.
-/
import QuartoPretext.Text.Basic

namespace QuartoPretext

/-- What a warning is about. -/
inductive Cause
  /-- a div of no known class -/
  | unknownDiv (label : Text)
  /-- an inline delimiter without its partner -/
  | unmatched (delimiter : Text)
  | undefinedFootnote (id : Text)
  | mixedMarkers
  /-- a level-1 heading after the first one -/
  | secondTitle (title : Text)
  /-- an exercise whose solution is missing -/
  | missingSolution (number : Nat)
  /-- a solution whose exercise is missing -/
  | unusedSolution (number : Nat)
  deriving Repr, DecidableEq

namespace Cause

/-- The category of a cause. -/
def kind : Cause → Text
  | unknownDiv _ => "unrecognized construct".toList
  | unmatched _ => "unbalanced inline markup".toList
  | undefinedFootnote _ => "undefined footnote".toList
  | mixedMarkers => "mixed list markers".toList
  | secondTitle _ => "duplicate title".toList
  | missingSolution _ | unusedSolution _ => "missing solution".toList

/-- What happened. -/
def message : Cause → Text
  | unknownDiv label => "unrecognized div `".toList ++ label ++ "`; content kept".toList
  | unmatched delimiter => "unmatched `".toList ++ delimiter ++ "`".toList
  | undefinedFootnote id => "footnote [^".toList ++ id ++ "] has no definition".toList
  | mixedMarkers => "list marker style changes; starting a new list".toList
  | secondTitle title => "second level-1 heading `".toList ++ title ++ "` opens a section".toList
  | missingSolution n => "exercise ".toList ++ Text.ofNat n ++ " has no solution".toList
  | unusedSolution n => "solution ".toList ++ Text.ofNat n ++ " has no matching exercise".toList

end Cause

structure Warning where
  line : Option Nat
  cause : Cause
  deriving Repr, DecidableEq

/-- The text shown to the author. -/
def Warning.display (w : Warning) : Text :=
  let place := match w.line with
    | some n => "line ".toList ++ Text.ofNat n ++ ": ".toList
    | none => []
  place ++ w.cause.kind ++ ": ".toList ++ w.cause.message

end QuartoPretext
