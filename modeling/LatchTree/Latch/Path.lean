import LatchTree.Fault
import LatchTree.Latch.Access

/-!
# The latches of one operation

An operation latches the root pointer and then one page after the other on its
way down.  A page is safe if the operation cannot reach beyond it; as soon as a
safe page is latched, all latches above it are let go.  What is still held is a
path that ends at the deepest page reached, and changes walk it upward from
there.
-/

namespace LatchTree

/-- A held latch: that of the root pointer, or that of a page which was reached
through a slot of its parent. -/
inductive Link where
  | root
  | page (id : PageId) (slot : Nat)
  deriving DecidableEq, Repr

/-- The latches held, the deepest first, all in one mode. -/
structure LatchPath where
  mode : LatchMode
  links : List Link
  deriving DecidableEq, Repr

namespace LatchPath

def page (path : LatchPath) : Except Fault PageId :=
  match path.links with
  | .page id _ :: _ => .ok id
  | _ => .error .rootLatch

/-- The page at the lower end of a path that permits changes, with its slot and
the links above. -/
def target (path : LatchPath) : Except Fault (PageId × Nat × List Link) :=
  match path.mode, path.links with
  | .shared, _ => .error .sharedWrite
  | .exclusive, .page id slot :: above => .ok (id, slot, above)
  | .exclusive, _ => .error .rootLatch

end LatchPath

end LatchTree
