import LatchTree.Config

/-!
# Structural counters

Every split, merge, borrow and replacement of the root is counted.  One more
counter follows the pages in use: it grows with each allocation and shrinks with
each page that is retired.
-/

namespace LatchTree

structure Stats where
  leafSplits : Nat := 0
  branchSplits : Nat := 0
  leafMerges : Nat := 0
  branchMerges : Nat := 0
  borrows : Nat := 0
  rootSplits : Nat := 0
  rootCollapses : Nat := 0
  livePages : Nat := 0
  deriving DecidableEq, Repr

namespace Stats

def countSplit (stats : Stats) : PageKind → Stats
  | .leaf => { stats with leafSplits := stats.leafSplits + 1 }
  | .branch => { stats with branchSplits := stats.branchSplits + 1 }

def countMerge (stats : Stats) : PageKind → Stats
  | .leaf => { stats with leafMerges := stats.leafMerges + 1 }
  | .branch => { stats with branchMerges := stats.branchMerges + 1 }

def countBorrow (stats : Stats) : Stats :=
  { stats with borrows := stats.borrows + 1 }

def countRootSplit (stats : Stats) : Stats :=
  { stats with rootSplits := stats.rootSplits + 1 }

def countRootCollapse (stats : Stats) : Stats :=
  { stats with rootCollapses := stats.rootCollapses + 1 }

def countAllocated (stats : Stats) : Stats :=
  { stats with livePages := stats.livePages + 1 }

def countRetired (stats : Stats) : Stats :=
  { stats with livePages := stats.livePages - 1 }

/-- The counters under the names by which they are reported, in the order of a
report. -/
def fields (stats : Stats) : List (String × Nat) :=
  [("leaf_splits", stats.leafSplits),
   ("internal_splits", stats.branchSplits),
   ("leaf_merges", stats.leafMerges),
   ("internal_merges", stats.branchMerges),
   ("borrows", stats.borrows),
   ("root_splits", stats.rootSplits),
   ("root_collapses", stats.rootCollapses),
   ("live_pages", stats.livePages)]

end Stats

end LatchTree
