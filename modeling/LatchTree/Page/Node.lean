import LatchTree.Config
import LatchTree.Latch.Access
import LatchTree.Page.Leaf
import LatchTree.Page.Branch

/-!
# Nodes

A node is what a page holds: a leaf or a branch.  The size of a node is measured
against the capacity and the least size of its kind.
-/

namespace LatchTree

inductive Node (V : Type) where
  | leaf (contents : Leaf V)
  | branch (contents : Branch)

namespace Node

variable {V : Type}

def kind : Node V → PageKind
  | .leaf _ => .leaf
  | .branch _ => .branch

def size : Node V → Nat
  | .leaf contents => contents.entries.length
  | .branch contents => contents.entries.length

/-- Whether all slots are taken, the spare one included. -/
def isOverfull (node : Node V) (config : Config) : Bool :=
  decide (config.slots node.kind ≤ node.size)

def isUnderfull (node : Node V) (config : Config) : Bool :=
  decide (node.size < config.minSize node.kind)

/-- Whether an operation that arrives at the node can be carried out without a
change to the pages above it.  The root has no least size: as a leaf it may run
empty, and as a branch it only has to keep two children. -/
def isSafe (node : Node V) (config : Config) (access : Access) (isRoot : Bool) :
    Bool :=
  match access, isRoot, node with
  | .read, _, _ => true
  | .insert, _, node => decide (node.size < config.capacity node.kind)
  | .delete, true, .leaf _ => true
  | .delete, true, .branch contents => decide (2 < contents.entries.length)
  | .delete, false, node => decide (config.minSize node.kind < node.size)

def split : Node V → Except Fault (Siblings (Node V))
  | .leaf contents =>
    match contents.split with
    | some pair => .ok (pair.map .leaf)
    | none => .error .tooFewEntries
  | .branch contents =>
    match contents.split with
    | some pair => .ok (pair.map .branch)
    | none => .error .tooFewEntries

/-- The left node with all that the pair held, and the right node without
anything. -/
def merge : Siblings (Node V) → Except Fault (Node V × Node V)
  | ⟨.leaf left, separator, .leaf right⟩ =>
    .ok (.leaf (Leaf.merge ⟨left, separator, right⟩), .leaf right.drained)
  | ⟨.branch left, separator, .branch right⟩ =>
    .ok (.branch (Branch.merge ⟨left, separator, right⟩), .branch .drained)
  | _ => .error .mixedSiblings

def borrow (donor : Direction) :
    Siblings (Node V) → Except Fault (Siblings (Node V))
  | ⟨.leaf left, separator, .leaf right⟩ =>
    match Leaf.borrow donor ⟨left, separator, right⟩ with
    | some pair => .ok (pair.map .leaf)
    | none => .error .tooFewEntries
  | ⟨.branch left, separator, .branch right⟩ =>
    match Branch.borrow donor ⟨left, separator, right⟩ with
    | some pair => .ok (pair.map .branch)
    | none => .error .tooFewEntries
  | _ => .error .mixedSiblings

end Node

end LatchTree
