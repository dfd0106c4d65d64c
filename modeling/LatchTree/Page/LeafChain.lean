import LatchTree.Page.Table

/-!
# The leaf chain

The leaves of a tree are linked in both directions in the order of their
keys.  A leaf that is split off is linked in behind the leaf it came from; a
leaf that is merged away is linked out.
-/

namespace LatchTree.PageTable

variable {V : Type}

def linkAfter (table : PageTable V) (left right : PageId) : PageTable V :=
  let next := table.next? left
  let table := (table.setPrev right (some left)).setNext right next
  let table := match next with
    | some next => table.setPrev next (some right)
    | none => table
  table.setNext left (some right)

/-- Links a page out and clears its own links. -/
def unlink (table : PageTable V) (id : PageId) : PageTable V :=
  let prev := table.prev? id
  let next := table.next? id
  let table := match prev with
    | some prev => table.setNext prev next
    | none => table
  let table := match next with
    | some next => table.setPrev next prev
    | none => table
  (table.setPrev id none).setNext id none

end LatchTree.PageTable
