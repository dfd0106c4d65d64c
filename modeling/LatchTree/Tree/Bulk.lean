import LatchTree.Tree.Insert
import LatchTree.Tree.Lookup
import LatchTree.Tree.Remove

/-!
# Operations on many keys

The same operation on one key after the other, with a tally of how many
succeeded.
-/

namespace LatchTree

structure Tally where
  ok : Nat := 0
  failed : Nat := 0
  deriving DecidableEq, Repr

def Tally.count (tally : Tally) (succeeded : Bool) : Tally :=
  if succeeded then { tally with ok := tally.ok + 1 }
  else { tally with failed := tally.failed + 1 }

namespace Tree

variable {V : Type}

def insertAll (tree : Tree V) : List (Key × V) → Except Fault (Outcome V Tally)
  | [] => return { result := {}, tree }
  | (key, value) :: rest => do
    let ⟨inserted, tree, events⟩ ← tree.insert key value
    let ⟨tally, tree, later⟩ ← tree.insertAll rest
    return ⟨tally.count inserted.isOk, tree, events ++ later⟩

def removeAll (tree : Tree V) : List Key → Except Fault (Outcome V Tally)
  | [] => return { result := {}, tree }
  | key :: rest => do
    let ⟨removed, tree, events⟩ ← tree.remove key
    let ⟨tally, tree, later⟩ ← tree.removeAll rest
    return ⟨tally.count removed.isOk, tree, events ++ later⟩

def containsAll (tree : Tree V) : List Key → Except Fault Tally
  | [] => return {}
  | key :: rest => do
    let found ← tree.contains key
    return (← tree.containsAll rest).count found

end Tree

end LatchTree
