import LatchTree.Page.Siblings

/-!
# Leaves

A leaf holds entries in ascending order of their keys and two fences: the least
key that belongs to it and the least key above it that does not.  Only the last
leaf of a tree lacks an upper fence. The fences move with the separators above
the leaf, not with its entries.
-/

namespace LatchTree

structure Leaf (V : Type) where
  entries : List (Key × V) := []
  low : Key := 0
  high : Option Key := none

namespace Leaf

variable {V : Type}

def keys (leaf : Leaf V) : List Key :=
  leaf.entries.map (·.1)

def get? (leaf : Leaf V) (key : Key) : Option V :=
  leaf.entries.lookup key

def insert (leaf : Leaf V) (key : Key) (value : V) : Leaf V :=
  { leaf with
    entries := leaf.entries.takeWhile (·.1 < key) ++
      (key, value) :: leaf.entries.dropWhile (·.1 < key) }

def erase (leaf : Leaf V) (key : Key) : Leaf V :=
  { leaf with entries := leaf.entries.eraseP (·.1 == key) }

def entriesFrom (leaf : Leaf V) (lower : Key) : List (Key × V) :=
  leaf.entries.dropWhile (·.1 < lower)

/-- The leaf that remains when its entries have moved elsewhere. -/
def drained (leaf : Leaf V) : Leaf V :=
  { leaf with entries := [] }

/-- Cuts a leaf in two.  Of an odd number of entries the left leaf keeps one
more. -/
def split (leaf : Leaf V) : Option (Siblings (Leaf V)) :=
  let kept := leaf.entries.length - leaf.entries.length / 2
  match leaf.entries.drop kept with
  | [] => none
  | first :: rest =>
    some {
      left := { leaf with entries := leaf.entries.take kept, high := some first.1 }
      separator := first.1
      right := { entries := first :: rest, low := first.1, high := leaf.high } }

/-- Moves all entries of the right leaf to the left one, which takes over the
upper fence. -/
def merge (pair : Siblings (Leaf V)) : Leaf V :=
  { pair.left with
    entries := pair.left.entries ++ pair.right.entries
    high := pair.right.high }

def shiftLeft (pair : Siblings (Leaf V)) : Option (Siblings (Leaf V)) :=
  match pair.right.entries with
  | moved :: first :: rest =>
    some {
      left := {
        pair.left with entries := pair.left.entries ++ [moved], high := some first.1 }
      separator := first.1
      right := { pair.right with entries := first :: rest, low := first.1 } }
  | _ => none

def shiftRight (pair : Siblings (Leaf V)) : Option (Siblings (Leaf V)) :=
  pair.left.entries.getLast?.map fun moved => {
    left := {
      pair.left with entries := pair.left.entries.dropLast, high := some moved.1 }
    separator := moved.1
    right := { pair.right with entries := moved :: pair.right.entries, low := moved.1 } }

def borrow (donor : Direction) (pair : Siblings (Leaf V)) : Option
    (Siblings (Leaf V)) :=
  match donor with
  | .right => shiftLeft pair
  | .left => shiftRight pair

end Leaf

end LatchTree
