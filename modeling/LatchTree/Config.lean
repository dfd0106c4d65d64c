/-!
# Page kinds and page sizes

A tree has one parameter, its degree: the number of entries a leaf may keep.  A
branch may keep one child more, since its first child stands before every
separator.  From the degree follow the capacity of each kind of page and the
least size to which removals may shrink it.
-/

namespace LatchTree

inductive PageKind where
  | leaf
  | branch
  deriving DecidableEq, Repr

/-- The word that events use for the kind. -/
def PageKind.word : PageKind → String
  | .leaf => "leaf"
  | .branch => "internal"

def minDegree : Nat := 3

def defaultDegree : Nat := 64

structure Config where
  degree : Nat := defaultDegree
  deriving DecidableEq, Repr

namespace Config

/-- The largest size a page has between two operations. -/
def capacity (config : Config) : PageKind → Nat
  | .leaf => config.degree
  | .branch => config.degree + 1

/-- The entries a page needs room for.  An insertion may fill one slot more than
the capacity, and then the page is split. -/
def slots (config : Config) (kind : PageKind) : Nat :=
  config.capacity kind + 1

/-- Half the capacity, rounded up.  Both halves of a page that overflowed reach
this size, and a page that lacks one entry for it either fits into one page with
its neighbour or can borrow from it. -/
def minSize (config : Config) (kind : PageKind) : Nat :=
  (config.capacity kind - 1) / 2 + 1

end Config

end LatchTree
