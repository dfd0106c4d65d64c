import LatchTree.Tree.Descent

/-!
# Walks along the leaves

A walk visits leaves in ascending order and may pause between two of them for as
long as it likes, while the tree changes.  It remembers the leaf that stood next
when it paused, and a lower bound: the least key it has not passed yet.  When it
goes on, it trusts the remembered leaf only if that leaf is still in use and
does not begin above the bound; otherwise it descends from the root to the leaf
that covers the bound.
-/

namespace LatchTree

inductive Cursor where
  /-- At the leaf that covers the lower bound. -/
  | seek
  | leaf (page : PageId)
  | finished
  deriving DecidableEq, Repr

structure Walk where
  cursor : Cursor
  lower : Key
  deriving DecidableEq, Repr

structure Visit (V : Type) where
  page : PageId
  /-- Whether the walk descended from the root to get here. -/
  descended : Bool
  /-- The entries from the lower bound on. -/
  entries : List (Key × V)
  next : Option PageId
  high : Option Key

namespace Walk

variable {V : Type}

def start (lower : Key) : Walk :=
  ⟨.seek, lower⟩

def visit (walk : Walk) (tree : Tree V) (page : PageId) (descended : Bool)
    (leaf : Leaf V) :
    Visit V where
  page
  descended
  entries := leaf.entriesFrom walk.lower
  next := tree.pages.next? page
  high := leaf.high

/-- The walk after a visit.  A leaf without an upper fence is the last one.  The
bound never sinks, though a remembered leaf may end below it. -/
def after (walk : Walk) (visit : Visit V) : Walk :=
  match visit.high, visit.next with
  | some high, some next => ⟨.leaf next, max walk.lower high⟩
  | _, _ => ⟨.finished, walk.lower⟩

def seekLeaf (walk : Walk) (tree : Tree V) : Except Fault (Visit V) := do
  let (page, leaf) ← tree.leafFor walk.lower
  return walk.visit tree page true leaf

def nextVisit? (walk : Walk) (tree : Tree V) :
    Except Fault (Option (Visit V)) := do
  match walk.cursor with
  | .finished => return none
  | .seek => return some (← walk.seekLeaf tree)
  | .leaf id =>
    let page ← tree.pages.page id
    let leaf ← tree.pages.leaf id
    if page.retired || walk.lower < leaf.low then
      return some (← walk.seekLeaf tree)
    else
      return some (walk.visit tree id false leaf)

/-- All visits of a walk through a tree that does not change.  They lead to
distinct leaves, so the number of pages bounds their number. -/
def visitsWithin (tree : Tree V) : Nat → Walk → Except Fault (List (Visit V))
  | 0, _ => .error .endless
  | fuel + 1, walk => do
    match ← walk.nextVisit? tree with
    | none => return []
    | some visit => return visit :: (← visitsWithin tree fuel (walk.after visit))

def visits (walk : Walk) (tree : Tree V) : Except Fault (List (Visit V)) :=
  visitsWithin tree (tree.pages.size + 1) walk

end Walk

namespace Tree

variable {V : Type}

def size (tree : Tree V) : Except Fault Nat := do
  let visits ← (Walk.start 0).visits tree
  return (visits.flatMap (·.entries)).length

end Tree

end LatchTree
