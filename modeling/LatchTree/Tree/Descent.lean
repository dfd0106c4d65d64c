import LatchTree.Latch.Path
import LatchTree.Tree.Basic

/-!
# Descent to a leaf

Every operation on a key starts with a descent from the root to the leaf that
covers the key.  The descent yields the latches that are still held when the
leaf is reached.  It visits no page twice, so the number of pages bounds its
length.
-/

namespace LatchTree.Tree

variable {V : Type}

/-- The latches held after a node has been latched too.  A node that is latched
directly below the root pointer is the root. -/
def heldLinks (tree : Tree V) (access : Access) (node : Node V) (link : Link)
    (above : List Link) :
    List Link :=
  link :: if node.isSafe tree.config access (above = [.root]) then [] else above

def descendFrom (tree : Tree V) (key : Key) (access : Access) :
    Nat → PageId → Nat → List Link → Except Fault (List Link)
  | 0, _, _, _ => .error .endless
  | fuel + 1, page, slot, above => do
    let node ← tree.pages.node page
    let links := tree.heldLinks access node (.page page slot) above
    match node with
    | .leaf _ => return links
    | .branch branch =>
      let next := branch.slotFor key
      tree.descendFrom key access fuel (← branch.child next) next links

def descend (tree : Tree V) (key : Key) (access : Access) :
    Except Fault LatchPath := do
  let links ← tree.descendFrom key access tree.pages.size tree.root 0 [.root]
  return ⟨access.mode, links⟩

def leafFor (tree : Tree V) (key : Key) : Except Fault (PageId × Leaf V) := do
  let path ← tree.descend key .read
  let page ← path.page
  return (page, ← tree.pages.leaf page)

end LatchTree.Tree
