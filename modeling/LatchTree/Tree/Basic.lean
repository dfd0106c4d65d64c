import LatchTree.Error
import LatchTree.Event
import LatchTree.Page.LeafChain

/-!
# Trees

A tree is a page table with a root pointer, a height and counters.  The height
is one while the root is a leaf.  Operations that change a tree answer with an
outcome: their result, the changed tree and the events that they caused, in
order.
-/

namespace LatchTree

structure Tree (V : Type) where
  config : Config
  pages : PageTable V
  root : PageId
  height : Nat
  stats : Stats

structure Outcome (V α : Type) where
  result : α
  tree : Tree V
  events : List Event := []

namespace Tree

variable {V : Type}

def empty (config : Config) : Tree V where
  config
  pages := PageTable.alloc {} (.leaf {})
  root := 0
  height := 1
  stats := Stats.countAllocated {}

/-- Builds a tree without a look at the degree. -/
def build (config : Config) : Outcome V Unit :=
  ⟨(), empty config, [.created config.degree]⟩

def new : Outcome V Unit :=
  build {}

def withConfig (config : Config) : Except TreeError (Outcome V Unit) := do
  config.validate
  return build config

def withDegree (degree : Nat) : Except TreeError (Outcome V Unit) :=
  withConfig { degree }

def degree (tree : Tree V) : Nat :=
  tree.config.degree

def reportStats (tree : Tree V) : Event :=
  .statsReport tree.stats

def setNode (tree : Tree V) (page : PageId) (node : Node V) : Tree V :=
  { tree with pages := tree.pages.setNode page node }

/-- Takes a page out of use.  A leaf is linked out of the leaf chain first. -/
def retire (tree : Tree V) (page : PageId) (kind : PageKind) : Tree V :=
  let pages := match kind with
    | .leaf => tree.pages.unlink page
    | .branch => tree.pages
  { tree with pages := pages.markRetired page, stats := tree.stats.countRetired }

end Tree

end LatchTree
