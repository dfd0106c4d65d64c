import LatchTree.Fault
import LatchTree.Page.Siblings

/-!
# Branches

A branch lists its children, each under a key.  From the second child on that
key is a separator: the child covers the keys from its own separator up to the
next one.  The key of the first child separates nothing, and neither a search
nor a change of the branch depends on it: whenever the first child moves behind
another one, it takes the separator that the parent kept for the branch.
-/

namespace LatchTree

/-- Two children of a branch that stand side by side. -/
structure Neighbours where
  left : PageId
  right : PageId
  /-- The slot of the right one, under whose key the branch keeps the separator
  of the two. -/
  slot : Nat
  deriving DecidableEq

structure Branch where
  entries : List (Key × PageId)
  deriving DecidableEq

namespace Branch

def children (branch : Branch) : List PageId :=
  branch.entries.map (·.2)

def separators (branch : Branch) : List Key :=
  branch.entries.tail.map (·.1)

def slotFor (branch : Branch) (key : Key) : Nat :=
  (branch.entries.tail.takeWhile (·.1 ≤ key)).length

def entry (branch : Branch) (slot : Nat) : Except Fault (Key × PageId) :=
  match branch.entries[slot]? with
  | some entry => .ok entry
  | none => .error (.missingChild slot)

def child (branch : Branch) (slot : Nat) : Except Fault PageId :=
  (branch.entry slot).map (·.2)

def insertAfter (branch : Branch) (slot : Nat) (entry : Key × PageId) :
    Except Fault Branch :=
  if branch.entries.length ≤ slot then
    .error (.missingChild slot)
  else if branch.entries[slot + 1]?.all fun next => decide (entry.1 < next.1) then
    .ok ⟨branch.entries.insertIdx (slot + 1) entry⟩
  else
    .error (.separatorOrder entry.1)

def eraseSlot (branch : Branch) (slot : Nat) : Branch :=
  ⟨branch.entries.eraseIdx slot⟩

def setKey (branch : Branch) (slot : Nat) (key : Key) : Branch :=
  ⟨branch.entries.modify slot fun entry => (key, entry.2)⟩

def rekeyed (branch : Branch) (key : Key) : List (Key × PageId) :=
  match branch.entries with
  | [] => []
  | (_, child) :: rest => (key, child) :: rest

def drained : Branch := ⟨[]⟩

/-- A child with the neighbour that helps to repair it, and the side on which
the neighbour stands. It is the next child, or for the last child the one
before. -/
def neighbours (branch : Branch) (page : PageId) (slot : Nat) :
    Except Fault (Direction × Neighbours) := do
  if branch.entries.length < 2 then
    .error (.loneChild page)
  else if slot + 1 < branch.entries.length then
    return (.right, { left := page, right := ← branch.child (slot + 1), slot := slot + 1 })
  else
    return (.left, { left := ← branch.child (slot - 1), right := page, slot })

/-- Cuts a branch in two.  Of an odd number of children the left branch keeps
one more.  The key of the first child that moves becomes the separator of the
two branches. -/
def split (branch : Branch) : Option (Siblings Branch) :=
  let kept := branch.entries.length - branch.entries.length / 2
  match branch.entries.drop kept with
  | [] => none
  | first :: rest =>
    some {
      left := ⟨branch.entries.take kept⟩
      separator := first.1
      right := ⟨first :: rest⟩ }

/-- Moves all children of the right branch to the left one.  The separator of
the two branches is from then on the separator of the first child that moved. -/
def merge (pair : Siblings Branch) : Branch :=
  ⟨pair.left.entries ++ pair.right.rekeyed pair.separator⟩

/-- Moves the first child of the right branch to the end of the left one,
through the separator. -/
def shiftLeft (pair : Siblings Branch) : Option (Siblings Branch) :=
  match pair.right.entries with
  | (_, moved) :: first :: rest =>
    some {
      left := ⟨pair.left.entries ++ [(pair.separator, moved)]⟩
      separator := first.1
      right := ⟨first :: rest⟩ }
  | _ => none

/-- Moves the last child of the left branch to the front of the right one,
through the separator. -/
def shiftRight (pair : Siblings Branch) : Option (Siblings Branch) :=
  match pair.left.entries.getLast?, pair.right.rekeyed pair.separator with
  | some moved, second :: rest =>
    some {
      left := ⟨pair.left.entries.dropLast⟩
      separator := moved.1
      right := ⟨moved :: second :: rest⟩ }
  | _, _ => none

def borrow (donor : Direction) (pair : Siblings Branch) : Option
    (Siblings Branch) :=
  match donor with
  | .right => shiftLeft pair
  | .left => shiftRight pair

end Branch

end LatchTree
