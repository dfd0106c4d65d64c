import LatchTree.Scan.Walk

/-!
# Scans

A scan yields the entries from a first key on in ascending order, one at a
time.  It reads a leaf as a whole into a buffer and hands out the buffer before
it looks at the tree again.  It does not show the tree of one moment: entries
that come or go while it is under way may or may not be seen.
-/

namespace LatchTree

structure Scan (V : Type) where
  walk : Walk
  buffer : List (Key × V) := []

namespace Scan

variable {V : Type}

def start (lower : Key) : Scan V :=
  { walk := .start lower }

/-- Reads leaves until the buffer holds an entry or the walk has
finished.  Yields the visits that were made as well. -/
def fillWithin (tree : Tree V) :
    Nat → Scan V → Except Fault (List (Visit V) × Scan V)
  | 0, _ => .error .endless
  | fuel + 1, scan =>
    if scan.buffer.isEmpty then do
      match ← scan.walk.nextVisit? tree with
      | none => return ([], scan)
      | some visit =>
        let (visits, scan) ← fillWithin tree fuel ⟨scan.walk.after visit, visit.entries⟩
        return (visit :: visits, scan)
    else
      return ([], scan)

def fill (scan : Scan V) (tree : Tree V) :
    Except Fault (List (Visit V) × Scan V) :=
  fillWithin tree (tree.pages.size + 1) scan

def next (scan : Scan V) (tree : Tree V) :
    Except Fault (Option (Key × V) × Scan V) := do
  let (_, scan) ← scan.fill tree
  match scan.buffer with
  | [] => return (none, scan)
  | entry :: rest => return (some entry, { scan with buffer := rest })

/-- Up to `count` further entries.  A scan is not asked again once it has none.
-/
def take (tree : Tree V) : Nat → Scan V → Except Fault (List (Key × V) × Scan V)
  | 0, scan => return ([], scan)
  | count + 1, scan => do
    match ← scan.next tree with
    | (none, scan) => return ([], scan)
    | (some entry, scan) =>
      let (entries, scan) ← take tree count scan
      return (entry :: entries, scan)

/-- All further entries.  Their keys ascend, so there are not more of them than
keys. -/
def drain (tree : Tree V) (scan : Scan V) : Except Fault (List (Key × V)) := do
  return (← take tree UInt64.size scan).1

end Scan

namespace Tree

variable {V : Type}

def isEmpty (tree : Tree V) : Except Fault Bool := do
  return (← (Scan.start 0).next tree).1.isNone

def entriesFrom (tree : Tree V) (start : Key) : Except Fault (List (Key × V)) :=
  (Scan.start start).drain tree

/-- The values of up to `count` entries whose keys are not below `start`. -/
def range (tree : Tree V) (start : Key) (count : Nat) :
    Except Fault (List V) := do
  let (entries, _) ← (Scan.start start).take tree count
  return entries.map (·.2)

end Tree

end LatchTree
