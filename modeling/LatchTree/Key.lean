/-!
# Keys

Keys are unsigned 64-bit words under their usual order.  The tree uses nothing
but that order; arithmetic on keys occurs only where a progression of keys is
listed.  Bounds describe the keys that a part of the tree covers.
-/

namespace LatchTree

abbrev Key := UInt64

namespace Key

def ascending : List Key → Bool
  | a :: b :: rest => decide (a < b) && ascending (b :: rest)
  | _ => true

/-- The keys `start + i * step` for `i < count`, each reduced by the
modulus.  Without a modulus they are reduced by the number of keys, `2 ^ 64`. -/
def progression (start step count : Nat) (modulus : Option Nat) : List Key :=
  (List.range count).map fun i =>
    UInt64.ofNat ((start + i * step) % modulus.getD UInt64.size)

end Key

/-- The keys from `lower` on and below `upper`; a bound that is absent does not
restrict. -/
structure Bounds where
  lower : Option Key
  upper : Option Key
  deriving DecidableEq

namespace Bounds

def all : Bounds := ⟨none, none⟩

def admitsBelow (bounds : Bounds) (key : Key) : Bool :=
  bounds.lower.all fun lower => decide (lower ≤ key)

def admitsAbove (bounds : Bounds) (key : Key) : Bool :=
  bounds.upper.all fun upper => decide (key < upper)

end Bounds

end LatchTree
