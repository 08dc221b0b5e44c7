import HornLogic.Term.Text

/-!
# Errors

What can go wrong: a clause may be given a head that stands for no predicate, and a search may
run into one of its limits. Each cause has one message.
-/

namespace HornLogic

/-- The causes for which a clause is refused or a search is given up. -/
inductive Error where
  | variableHead (head : Term)
  /-- Goals were left on a branch after more resolution steps than the limit allows. -/
  | depthLimitExceeded (limit : Nat)
  /-- One more clause attempt was due than the limit allows. -/
  | stepLimitExceeded (limit : Nat)
  deriving DecidableEq

namespace Error

def message : Error → String
  | .variableHead head =>
    "clause head must be an atom or compound term, found variable `" ++ head.text ++ "`"
  | .depthLimitExceeded limit => "proof depth limit of " ++ toString limit ++ " exceeded"
  | .stepLimitExceeded limit => "resolution step limit of " ++ toString limit ++ " exceeded"

def kind : Error → String
  | .variableHead _ => "VariableHead"
  | .depthLimitExceeded _ => "DepthLimitExceeded"
  | .stepLimitExceeded _ => "StepLimitExceeded"

/-- What the error is about: the head found, or the limit that was exceeded. -/
def subject : Error → String
  | .variableHead head => head.text
  | .depthLimitExceeded limit => toString limit
  | .stepLimitExceeded limit => toString limit

def summary (error : Error) : String := error.kind ++ "(" ++ error.subject ++ ")"

instance : ToString Error := ⟨message⟩

end Error

end HornLogic
