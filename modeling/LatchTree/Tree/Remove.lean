import LatchTree.Tree.Descent

/-!
# Removal and repairs

An entry is taken out of the leaf that covers its key.  A page below its least
size is repaired together with a neighbour under the same parent.  If the two
fit into one page they are merged, and the right one is retired; the parent then
has a child less and may need a repair in turn.  Otherwise the page borrows one
entry, and nothing changes above.  The root is not repaired, but a branch root
that is left with one child gives way to that child.
-/

namespace LatchTree.Tree

variable {V : Type}

def pairAt (tree : Tree V) (branch : Branch) (pages : Neighbours) :
    Except Fault (Siblings (Node V)) := do
  let (separator, _) ← branch.entry pages.slot
  return { left := ← tree.pages.node pages.left, separator, right := ← tree.pages.node pages.right }

/-- Retires a page and notes it. -/
def retireNoted (tree : Tree V) (page : PageId) (kind : PageKind) :
    Tree V × List PageId :=
  (tree.retire page kind, [page])

/-- Merges two neighbours.  The right one leaves their parent and is retired. -/
def mergePair (tree : Tree V) (parent : PageId) (branch : Branch)
    (pages : Neighbours) (pair : Siblings (Node V)) :
    Except Fault (Tree V × List PageId) := do
  let (merged, drained) ← Node.merge pair
  let tree := tree.setNode pages.left merged
  let tree := tree.setNode pages.right drained
  let tree := tree.setNode parent (.branch (branch.eraseSlot pages.slot))
  let (tree, noted) := tree.retireNoted pages.right pair.left.kind
  return ({ tree with stats := tree.stats.countMerge pair.left.kind }, noted)

/-- Moves one entry between two neighbours.  Their parent takes up the new
separator. -/
def borrowInPair (tree : Tree V) (donor : Direction) (parent : PageId)
    (branch : Branch) (pages : Neighbours) (pair : Siblings (Node V)) :
    Except Fault (Tree V) := do
  let shifted ← Node.borrow donor pair
  let tree := tree.setNode pages.left shifted.left
  let tree := tree.setNode pages.right shifted.right
  let tree := tree.setNode parent (.branch (branch.setKey pages.slot shifted.separator))
  return { tree with stats := tree.stats.countBorrow }

def repair (tree : Tree V) (page : PageId) (slot : Nat) (parent : PageId) :
    Except Fault (Tree V × RepairAction × Event × List PageId) := do
  let branch ← tree.pages.branch parent
  let (direction, pages) ← branch.neighbours page slot
  let pair ← tree.pairAt branch pages
  let kind := pair.left.kind
  let children := branch.entries.length
  if pair.left.size + pair.right.size ≤ tree.config.capacity kind then
    let (tree, noted) ← tree.mergePair parent branch pages pair
    return (tree, .merge, .rebalanced kind direction .merge (children - 1), noted)
  else
    let tree ← tree.borrowInPair direction parent branch pages pair
    return (tree, .borrow, .rebalanced kind direction .borrow children, [])

/-- Replaces a root that has a single child by that child. -/
def collapseRoot (tree : Tree V) (page : PageId) :
    Except Fault (Tree V × List Event × List PageId) := do
  match ← tree.pages.node page with
  | .branch ⟨[(_, child)]⟩ =>
    let height := tree.height - 1
    let tree := { tree with root := child, height, stats := tree.stats.countRootCollapse }
    let (tree, noted) := tree.retireNoted page .branch
    return (tree, [.rootCollapsed height], noted)
  | _ => return (tree, [], [])

/-- Repairs a page if it is underfull, and then every page above it that has
become underfull. -/
def repairUnderfull (tree : Tree V) (page : PageId) (slot : Nat) :
    List Link → Except Fault (Tree V × List Event × List PageId)
  | [] => return (tree, [], [])
  | .root :: _ => tree.collapseRoot page
  | .page parent parentSlot :: rest => do
    let node ← tree.pages.node page
    if node.isUnderfull tree.config then
      let (tree, action, event, noted) ← tree.repair page slot parent
      match action with
      | .borrow => return (tree, [event], noted)
      | .merge =>
        let (tree, events, later) ← tree.repairUnderfull parent parentSlot rest
        return (tree, event :: events, noted ++ later)
    else
      return (tree, [], [])

/-- Takes out an entry and yields the pages that were retired on the way. -/
def removeAlongNoted (tree : Tree V) (path : LatchPath) (key : Key) :
    Except Fault (Outcome V (Except TreeError V) × List PageId) := do
  let (page, slot, above) ← path.target
  let leaf ← tree.pages.leaf page
  match leaf.get? key with
  | none => return ({ result := .error (.notFound key), tree }, [])
  | some value =>
    let tree := tree.setNode page (.leaf (leaf.erase key))
    let (tree, events, noted) ← tree.repairUnderfull page slot above
    return ({ result := .ok value, tree, events }, noted)

def removeAlong (tree : Tree V) (path : LatchPath) (key : Key) :
    Except Fault (Outcome V (Except TreeError V)) := do
  let (outcome, _) ← tree.removeAlongNoted path key
  return outcome

def remove (tree : Tree V) (key : Key) :
    Except Fault (Outcome V (Except TreeError V)) := do
  tree.removeAlong (← tree.descend key .delete) key

end LatchTree.Tree
