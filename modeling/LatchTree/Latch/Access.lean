/-!
# Latch modes and access

A latch is held in one of two modes.  A read takes all latches shared, a change
takes them exclusively.
-/

namespace LatchTree

inductive LatchMode where
  | shared
  | exclusive
  deriving DecidableEq, Repr

/-- What an operation is about to do with the leaf that it looks for. -/
inductive Access where
  | read
  | insert
  | delete
  deriving DecidableEq, Repr

def Access.mode : Access → LatchMode
  | .read => .shared
  | .insert => .exclusive
  | .delete => .exclusive

end LatchTree
