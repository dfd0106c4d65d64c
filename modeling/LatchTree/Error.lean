import LatchTree.Key
import LatchTree.Config

/-!
# Refusals

The tree refuses three things: to insert a key it holds, to look up or remove a
key it does not hold, and to be built with too small a degree.  A refusal
changes nothing.
-/

namespace LatchTree

inductive TreeError where
  | alreadyExists (key : Key)
  | notFound (key : Key)
  | invalidDegree (degree : Nat)
  deriving DecidableEq, Repr

namespace TreeError

def name : TreeError → String
  | .alreadyExists _ => "AlreadyExists"
  | .notFound _ => "NotFound"
  | .invalidDegree _ => "InvalidDegree"

def subject : TreeError → Nat
  | .alreadyExists key => key.toNat
  | .notFound key => key.toNat
  | .invalidDegree degree => degree

def message : TreeError → String
  | .alreadyExists key => s!"key {key} already exists"
  | .notFound key => s!"key {key} not found"
  | .invalidDegree degree =>
    s!"invalid degree {degree}: a page must hold at least {minDegree} entries"

def term (error : TreeError) : String :=
  s!"{error.name}({error.subject})"

end TreeError

/-- A degree is accepted from `minDegree` on. -/
def Config.validate (config : Config) : Except TreeError Unit :=
  if config.degree < minDegree then .error (.invalidDegree config.degree) else .ok ()

end LatchTree
