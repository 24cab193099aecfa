/-
# What a run tells the user

Key definitions: `Failure`, `Message`, `Message.text`.
-/
import QuartoPretext.Config.Fault
import QuartoPretext.Fault
import QuartoPretext.Profile
import QuartoPretext.Warning

namespace QuartoPretext

open Text

/-- Why an input, or a whole run, has failed. -/
inductive Failure
  | config (fault : ConfigFault)
  | file (path : Text) (fault : FileFault)
  | document (path : Text) (fault : Fault)
  | deniedWarnings (path : Text) (count : Nat)
  /-- the output would lie where the input is -/
  | overwrite (path : Text)
  /-- an identifier for more than one input -/
  | sharedId
  /-- solutions for documents that have no exercises -/
  | needlessSolutions
  | inputs (failed total : Nat)
  deriving Repr, DecidableEq

def Failure.message : Failure → Text
  | config fault => fault.message
  | file path fault => path ++ ": ".toList ++ fault.message
  | document path fault => path ++ ": ".toList ++ fault.message
  | deniedWarnings path count =>
    path ++ ": ".toList ++ ofNat count ++ " warning(s) with --deny-warnings".toList
  | overwrite path => path ++ ": refusing to overwrite the input".toList
  | sharedId => "--id needs exactly one input".toList
  | needlessSolutions => "--solutions needs --kind exercises".toList
  | inputs failed total =>
    ofNat failed ++ " of ".toList ++ ofNat total ++ " document(s) failed".toList

inductive Message
  | warning (input : Text) (w : Warning)
  /-- an input that could be converted, with the number of its warnings -/
  | checked (input : Text) (warnings : Nat)
  | wrote (path : Text)
  /-- an input that has failed -/
  | failed (failure : Failure)
  /-- the failure of the run -/
  | error (failure : Failure)
  | loadedConfig (path : Text)
  | loadedSolutions (path : Text) (count : Nat)
  | converting (input : Text) (kind : DocumentKind)
  deriving Repr, DecidableEq

def Message.text : Message → Text
  | warning input w => input ++ ": ".toList ++ w.display
  | checked input warnings =>
    input ++ ": ok".toList ++
      if warnings = 0 then [] else " with ".toList ++ ofNat warnings ++ " warning(s)".toList
  | wrote path => "Wrote ".toList ++ path
  | failed failure => failure.message
  | error failure => "Error: ".toList ++ failure.message
  | loadedConfig path => "INFO Loaded configuration path=".toList ++ path
  | loadedSolutions path count =>
    "INFO Loaded solutions path=".toList ++ path ++ " solutions=".toList ++ ofNat count
  | converting input kind =>
    "INFO Converting path=".toList ++ input ++ " kind=".toList ++ (Policy.name kind).toList

end QuartoPretext
