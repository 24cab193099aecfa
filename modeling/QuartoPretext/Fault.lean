/-
# Structural faults

A fault ends the conversion of a document. It names the line where the broken
construct starts.

Key definitions: `Fault`, `Fault.line`, `Fault.message?`.
-/
import QuartoPretext.Text.Basic

namespace QuartoPretext

/-- Why a document cannot be converted. -/
inductive Fault
  /-- a code fence without a closing one, by its opening line -/
  | openFence (line : Nat) (opener : Text)
  /-- a div without a closing fence, by its label -/
  | openDiv (line : Nat) (label : Text)
  /-- a closing div fence where no div is open -/
  | strayDivClose (line : Nat)
  /-- display math without its closing mark -/
  | openMath (line : Nat)
  /-- a heading that is not one level below the section it stands in -/
  | levelSkip (line : Nat) (level : Nat)
  /-- front matter that is not a mapping of the expected shape -/
  | frontMatter (line : Nat)
  deriving Repr, DecidableEq

namespace Fault

def line : Fault → Nat
  | openFence n _ | openDiv n _ | strayDivClose n | openMath n | levelSkip n _ | frontMatter n => n

/-- What is wrong, without the line. -/
def cause : Fault → Text
  | openFence _ opener => "unterminated code fence `".toList ++ opener ++ "`".toList
  | openDiv _ label => "unterminated div `".toList ++ label ++ "` (missing closing :::)".toList
  | strayDivClose _ => "closing ::: without a matching opening div".toList
  | openMath _ => "unterminated display math block (missing closing $$)".toList
  | levelSkip _ level =>
    "heading level ".toList ++ Text.ofNat level ++ " without an enclosing level ".toList ++
      Text.ofNat (level - 1) ++ " heading".toList
  | frontMatter _ => "invalid front matter".toList

/-- The text shown to the author. -/
def message (f : Fault) : Text := "line ".toList ++ Text.ofNat f.line ++ ": ".toList ++ f.cause

end Fault
end QuartoPretext
