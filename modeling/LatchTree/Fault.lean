import LatchTree.Key

/-!
# Faults

A fault is a way in which an operation could meet a damaged tree or break the
latching discipline. Operations report it instead of an answer.  No tree that
was built by the operations themselves leads to one.
-/

namespace LatchTree

/-- The number of a page in the page table. -/
abbrev PageId := Nat

inductive Fault where
  | missingPage (page : PageId)
  | notLeaf (page : PageId)
  | notBranch (page : PageId)
  | missingChild (slot : Nat)
  | mixedSiblings
  /-- A page to be split, or one to borrow from, has too few entries. -/
  | tooFewEntries
  | separatorOrder (separator : Key)
  /-- A page that is to be repaired has no neighbour. -/
  | loneChild (page : PageId)
  /-- A change must go on above a page whose parent's latch was let go. -/
  | releasedParent
  /-- The latch of the root pointer stands where a page is needed. -/
  | rootLatch
  | sharedWrite
  /-- A walk through the pages does not end. -/
  | endless
  deriving DecidableEq, Repr

def Fault.message : Fault → String
  | .missingPage page => s!"page {page} is not in the page table"
  | .notLeaf page => s!"page {page} is not a leaf"
  | .notBranch page => s!"page {page} is not a branch"
  | .missingChild slot => s!"no child at slot {slot}"
  | .mixedSiblings => "a leaf has a branch as its neighbour"
  | .tooFewEntries => "a page has too few entries to give one away"
  | .separatorOrder separator => s!"separator {separator} is not below the next one"
  | .loneChild page => s!"page {page} is the only child of its parent"
  | .releasedParent => "a split reached a parent whose latch was let go"
  | .rootLatch => "the root latch does not guard a page"
  | .sharedWrite => "write access requested through a shared latch"
  | .endless => "a walk through the pages does not end"

end LatchTree
