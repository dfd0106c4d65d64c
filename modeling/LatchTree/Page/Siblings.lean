import LatchTree.Key

/-!
# Neighbouring pages

Splits, merges and borrows all concern a pair of neighbouring pages together
with the separator that their parent keeps between them: every key below the
separator belongs to the left page, every other key to the right one.
-/

namespace LatchTree

inductive Direction where
  | left
  | right
  deriving DecidableEq, Repr

def Direction.word : Direction → String
  | .left => "left"
  | .right => "right"

structure Siblings (α : Type) where
  left : α
  separator : Key
  right : α

namespace Siblings

def map {α β : Type} (f : α → β) (pair : Siblings α) : Siblings β :=
  ⟨f pair.left, pair.separator, f pair.right⟩

end Siblings

end LatchTree
