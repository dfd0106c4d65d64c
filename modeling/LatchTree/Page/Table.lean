import LatchTree.Page.Node

/-!
# The page table

All pages that were ever allocated stand in one table under their
numbers.  Beside its node, a page carries the two links of the leaf chain and a
mark that tells whether it was retired.  A retired page keeps its number for
good, so a scan that remembered the page finds out.
-/

namespace LatchTree

structure Page (V : Type) where
  node : Node V
  prev : Option PageId := none
  next : Option PageId := none
  retired : Bool := false

structure PageTable (V : Type) where
  pages : Array (Page V) := #[]

namespace PageTable

variable {V : Type}

/-- The number of pages, retired ones included; also the number of the page
allocated next. -/
def size (table : PageTable V) : Nat :=
  table.pages.size

def page? (table : PageTable V) (id : PageId) : Option (Page V) :=
  table.pages[id]?

def page (table : PageTable V) (id : PageId) : Except Fault (Page V) :=
  match table.page? id with
  | some page => .ok page
  | none => .error (.missingPage id)

def node (table : PageTable V) (id : PageId) : Except Fault (Node V) :=
  (table.page id).map (·.node)

def leaf (table : PageTable V) (id : PageId) : Except Fault (Leaf V) := do
  match ← table.node id with
  | .leaf leaf => .ok leaf
  | .branch _ => .error (.notLeaf id)

def branch (table : PageTable V) (id : PageId) : Except Fault Branch := do
  match ← table.node id with
  | .branch branch => .ok branch
  | .leaf _ => .error (.notBranch id)

def next? (table : PageTable V) (id : PageId) : Option PageId :=
  (table.page? id).bind (·.next)

def prev? (table : PageTable V) (id : PageId) : Option PageId :=
  (table.page? id).bind (·.prev)

def alloc (table : PageTable V) (node : Node V) : PageTable V :=
  ⟨table.pages.push { node }⟩

def modify (table : PageTable V) (id : PageId) (f : Page V → Page V) :
    PageTable V :=
  ⟨table.pages.modify id f⟩

def setNode (table : PageTable V) (id : PageId) (node : Node V) : PageTable V :=
  table.modify id ({ · with node })

def setPrev (table : PageTable V) (id : PageId) (prev : Option PageId) :
    PageTable V :=
  table.modify id ({ · with prev })

def setNext (table : PageTable V) (id : PageId) (next : Option PageId) :
    PageTable V :=
  table.modify id ({ · with next })

def markRetired (table : PageTable V) (id : PageId) : PageTable V :=
  table.modify id ({ · with retired := true })

end PageTable

end LatchTree
