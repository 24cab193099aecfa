/-
# Why a file cannot be used

Key definitions: `FileFault`, `FileFault.message`.
-/
import QuartoPretext.Text.Basic

namespace QuartoPretext

inductive FileFault
  | notFound
  | alreadyExists
  /-- a file stands where a directory is needed -/
  | notDirectory
  | isDirectory
  | other (message : Text)
  deriving Repr, DecidableEq

def FileFault.message : FileFault → Text
  | notFound => "No such file or directory (os error 2)".toList
  | alreadyExists => "File exists (os error 17)".toList
  | notDirectory => "Not a directory (os error 20)".toList
  | isDirectory => "Is a directory (os error 21)".toList
  | other message => message

end QuartoPretext
