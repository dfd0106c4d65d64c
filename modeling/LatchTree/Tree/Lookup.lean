import LatchTree.Tree.Descent

/-!
# Looking up a key
-/

namespace LatchTree.Tree

variable {V : Type}

def get? (tree : Tree V) (key : Key) : Except Fault (Option V) := do
  let (_, leaf) ← tree.leafFor key
  return leaf.get? key

def contains (tree : Tree V) (key : Key) : Except Fault Bool := do
  return (← tree.get? key).isSome

def lookup (tree : Tree V) (key : Key) : Except Fault (Except TreeError V) := do
  match ← tree.get? key with
  | some value => return .ok value
  | none => return .error (.notFound key)

end LatchTree.Tree
