import LatchTree.Tree.Basic

/-!
# The audit of a tree

The audit walks all pages from the root and looks for a violation of what the
operations rely on. Each page lies within its size limits and within the bounds
that the separators above it set; its keys ascend; it is not retired.  All
leaves lie at the depth that the height names, and their fences are their
bounds.  The leaf chain runs through exactly these leaves in order, and the
pages found are as many as the counter of live pages says.
-/

namespace LatchTree

inductive Violation where
  | damaged (fault : Fault)
  | retiredPage (page : PageId)
  | oversized (page : PageId) (size capacity : Nat)
  | undersized (page : PageId) (size least : Nat)
  | unsortedKeys (page : PageId)
  | keyBelowBounds (page : PageId)
  | keyAboveBounds (page : PageId)
  | leafDepth (page : PageId)
  | branchDepth (page : PageId)
  | lowFence (page : PageId)
  | highFence (page : PageId)
  | livePages (found counted : Nat)
  | prevLink (page : PageId)
  | nextLink (page : PageId)
  deriving DecidableEq, Repr

def Violation.message : Violation → String
  | .damaged fault => fault.message
  | .retiredPage page => s!"retired page {page} is reachable"
  | .oversized page size capacity => s!"page {page} holds {size} > {capacity} entries"
  | .undersized page size least => s!"page {page} holds {size} < {least} entries"
  | .unsortedKeys page => s!"keys of page {page} are not sorted"
  | .keyBelowBounds page => s!"page {page} holds a key below its lower bound"
  | .keyAboveBounds page => s!"page {page} holds a key not below its upper bound"
  | .leafDepth page => s!"leaf {page} is not at the depth of the leaves"
  | .branchDepth page => s!"branch {page} is at the depth of the leaves"
  | .lowFence page => s!"lower fence of leaf {page} differs from its bound"
  | .highFence page => s!"upper fence of leaf {page} differs from its bound"
  | .livePages found counted => s!"reachable pages {found} != live page counter {counted}"
  | .prevLink page => s!"leaf {page} is not linked to the leaf before it"
  | .nextLink page => s!"leaf {page} is not linked to the leaf after it"

def Violation.unlessHolds (violation : Violation) (condition : Bool) :
    Except Violation Unit :=
  if condition then .ok () else .error violation

namespace Branch

def boundsFrom (bounds : Bounds) : List (Key × PageId) → List (PageId × Bounds)
  | [] => []
  | [(_, child)] => [(child, bounds)]
  | (_, child) :: (separator, next) :: rest =>
    (child, ⟨bounds.lower, some separator⟩) ::
      boundsFrom ⟨some separator, bounds.upper⟩ ((separator, next) :: rest)

/-- The children, each with the bounds that the separators beside it set within
the bounds of the branch. -/
def childBounds (branch : Branch) (bounds : Bounds) : List (PageId × Bounds) :=
  boundsFrom bounds branch.entries

end Branch

/-- What an audit found below a page: the number of pages, and the leaves in
order. -/
structure Census where
  pages : Nat
  leaves : List PageId

namespace Census

def ofLeaf (page : PageId) : Census :=
  ⟨1, [page]⟩

def ofBranch (children : List Census) : Census :=
  ⟨children.foldr (fun child pages => child.pages + pages) 1, children.flatMap (·.leaves)⟩

end Census

namespace Tree

variable {V : Type}

def auditSize (tree : Tree V) (page : PageId) (node : Node V) (isRoot : Bool) :
    Except Violation Unit := do
  let capacity := tree.config.capacity node.kind
  let least := match isRoot, node.kind with
    | true, .leaf => 0
    | true, .branch => 2
    | false, kind => tree.config.minSize kind
  (Violation.oversized page node.size capacity).unlessHolds (node.size ≤ capacity)
  (Violation.undersized page node.size least).unlessHolds (least ≤ node.size)

def auditKeys (page : PageId) (keys : List Key) (bounds : Bounds) :
    Except Violation Unit := do
  (Violation.unsortedKeys page).unlessHolds (Key.ascending keys)
  (Violation.keyBelowBounds page).unlessHolds (keys.all bounds.admitsBelow)
  (Violation.keyAboveBounds page).unlessHolds (keys.all bounds.admitsAbove)

/-- Audits a page and those below it.  The number of levels counts from this
page down to the leaves. -/
def auditPage (tree : Tree V) :
    Nat → PageId → Bool → Bounds → Except Violation Census
  | 0, page, _, _ => .error (.leafDepth page)
  | below + 1, id, isRoot, bounds => do
    let page ← (tree.pages.page id).mapError .damaged
    (Violation.retiredPage id).unlessHolds !page.retired
    tree.auditSize id page.node isRoot
    match page.node with
    | .leaf leaf =>
      auditKeys id leaf.keys bounds
      (Violation.leafDepth id).unlessHolds (below = 0)
      (Violation.lowFence id).unlessHolds (leaf.low = bounds.lower.getD 0)
      (Violation.highFence id).unlessHolds (leaf.high = bounds.upper)
      return .ofLeaf id
    | .branch branch =>
      auditKeys id branch.separators bounds
      (Violation.branchDepth id).unlessHolds (0 < below)
      let children ← (branch.childBounds bounds).mapM fun (child, bounds) =>
        tree.auditPage below child false bounds
      return .ofBranch children

/-- Audits that each leaf is linked to those beside it in the list, and to none
at the ends. -/
def auditChain (tree : Tree V) (before : Option PageId) : List PageId →
    Except Violation Unit
  | [] => .ok ()
  | leaf :: rest => do
    (Violation.prevLink leaf).unlessHolds (tree.pages.prev? leaf = before)
    (Violation.nextLink leaf).unlessHolds (tree.pages.next? leaf = rest.head?)
    tree.auditChain (some leaf) rest

def audit (tree : Tree V) : Except Violation Unit := do
  let census ← tree.auditPage tree.height tree.root true .all
  (Violation.livePages census.pages tree.stats.livePages).unlessHolds
    (census.pages = tree.stats.livePages)
  tree.auditChain none census.leaves

end Tree

end LatchTree
