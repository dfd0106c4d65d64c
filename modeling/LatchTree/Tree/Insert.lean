import LatchTree.Tree.Descent

/-!
# Insertion and splits

An entry is put into the leaf that covers its key.  A page that is overfull
afterwards is split, and its upper half becomes a new page to its right.  The
parent then gains a child and may be overfull in turn, so splits go on upward
along the held latches.  If the root is split, a new root above it takes both
halves, and the tree is one level higher.
-/

namespace LatchTree.Tree

variable {V : Type}

/-- Splits a page.  Besides the tree this yields the entry that the parent has
to take up. -/
def splitPage (tree : Tree V) (page : PageId) :
    Except Fault (Tree V × (Key × PageId) × Event) := do
  let node ← tree.pages.node page
  let halves ← node.split
  let sibling := tree.pages.size
  let allocated := tree.pages.alloc halves.right
  let linked := match node.kind with
    | .leaf => allocated.linkAfter page sibling
    | .branch => allocated
  let tree := { tree with
    pages := linked.setNode page halves.left
    stats := tree.stats.countAllocated.countSplit node.kind }
  return (tree, (halves.separator, sibling),
    .pageSplit node.kind halves.left.size halves.separator)

def growRoot (tree : Tree V) (entry : Key × PageId) : Tree V × Event :=
  let height := tree.height + 1
  let grown := { tree with
    pages := tree.pages.alloc (.branch ⟨[(0, tree.root), entry]⟩)
    root := tree.pages.size
    height
    stats := tree.stats.countAllocated.countRootSplit }
  (grown, .rootSplit height entry.1)

/-- Splits a page if it is overfull, and then every page above it that has
become overfull. -/
def splitOverfull (tree : Tree V) (page : PageId) (slot : Nat)
    (above : List Link) :
    Except Fault (Tree V × List Event) := do
  let node ← tree.pages.node page
  if node.isOverfull tree.config then
    let (tree, entry, event) ← tree.splitPage page
    match above with
    | [] => throw .releasedParent
    | .root :: _ =>
      let (tree, grown) := tree.growRoot entry
      return (tree, [event, grown])
    | .page parent parentSlot :: rest =>
      let branch ← (← tree.pages.branch parent).insertAfter slot entry
      let tree := tree.setNode parent (.branch branch)
      let (tree, events) ← tree.splitOverfull parent parentSlot rest
      return (tree, event :: events)
  else
    return (tree, [])
termination_by structural above

def insertAlong (tree : Tree V) (path : LatchPath) (key : Key) (value : V) :
    Except Fault (Outcome V (Except TreeError Unit)) := do
  let (page, slot, above) ← path.target
  let leaf ← tree.pages.leaf page
  if (leaf.get? key).isSome then
    return { result := .error (.alreadyExists key), tree }
  else
    let tree := tree.setNode page (.leaf (leaf.insert key value))
    let (tree, events) ← tree.splitOverfull page slot above
    return { result := .ok (), tree, events }

def insert (tree : Tree V) (key : Key) (value : V) :
    Except Fault (Outcome V (Except TreeError Unit)) := do
  tree.insertAlong (← tree.descend key .insert) key value

end LatchTree.Tree
