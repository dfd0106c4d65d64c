import LatchTree.Tree.Basic

/-!
# Subtrees

What the page table holds below a page, as one value: the pages and their
contents, nested as their parents refer to them.
-/

namespace LatchTree

inductive Subtree (V : Type) where
  | leaf (page : PageId) (contents : Leaf V)
  /-- The children stand under the keys that the branch keeps for them, the
  first one included. -/
  | branch (page : PageId) (children : List (Key × Subtree V))

namespace Tree

variable {V : Type}

/-- Unfolds the pages below a page.  No path through distinct pages is longer
than the table. -/
def subtreeFrom (tree : Tree V) : Nat → PageId → Except Fault (Subtree V)
  | 0, _ => .error .endless
  | fuel + 1, page => do
    match ← tree.pages.node page with
    | .leaf contents => return .leaf page contents
    | .branch contents =>
      if contents.entries.isEmpty then
        throw (.missingChild 0)
      else
        let children ← contents.entries.mapM fun (key, child) => do
          return (key, ← tree.subtreeFrom fuel child)
        return .branch page children

def subtree (tree : Tree V) : Except Fault (Subtree V) :=
  tree.subtreeFrom tree.pages.size tree.root

end Tree

end LatchTree
