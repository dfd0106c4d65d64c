import LatchTree.Proofs.Page.Siblings
import LatchTree.Proofs.Subtree.Fits

/-!
# Sizes that go together

Capacity and least size are chosen so that a page which has one entry too many
can be halved, and a page which has one too few can be merged with a neighbour
or borrow from it.  The sizes are natural numbers here.  Computed in machine
words, step by step, they are the same numbers unless a step overflows.  Of all
degrees that are accepted, only the two largest words overflow.
-/

namespace LatchTree

namespace Config

variable {V : Type} {config : Config} {kind : PageKind}

/-- The sizes of a page that is not the root. -/
def Allows (config : Config) (kind : PageKind) (size : Nat) : Prop :=
  config.minSize kind ≤ size ∧ size ≤ config.capacity kind

/-- Splits, merges and borrows lead to allowed sizes. -/
structure Balances (config : Config) (V : Type) (kind : PageKind) : Prop where
  split : ∀ node : Node V, node.kind = kind →
    node.size = config.capacity kind + 1 →
      ∃ pair, node.split = .ok pair ∧ pair.right.size = node.size / 2 ∧
        pair.left.size + pair.right.size = node.size ∧
        config.Allows kind pair.left.size ∧ config.Allows kind pair.right.size
  repair : ∀ (donor : Direction) (pair : Siblings (Node V)),
    pair.left.kind = kind → pair.right.kind = kind →
    (pair.side donor.opposite).size + 1 = config.minSize kind →
    config.Allows kind (pair.side donor).size →
      if pair.left.size + pair.right.size ≤ config.capacity kind then
        ∃ joined drained, Node.merge pair = .ok (joined, drained) ∧
          pair.JoinsTo joined drained ∧ config.Allows kind joined.size
      else
        ∃ shifted, Node.borrow donor pair = .ok shifted ∧
          pair.ShiftsTo donor shifted ∧ config.Allows kind shifted.left.size ∧
          config.Allows kind shifted.right.size

theorem Valid.split_allowed (hvalid : config.Valid) {node : Node V}
    (hsize : node.size = config.capacity kind + 1) :
    ∃ pair, node.split = .ok pair ∧ pair.right.size = node.size / 2 ∧
      pair.left.size + pair.right.size = node.size ∧
      config.Allows kind pair.left.size ∧
      config.Allows kind pair.right.size := by
  have hbounds := hvalid.minSize_bounds kind
  have htwo : 2 ≤ node.size := by omega
  obtain ⟨pair, _, hsplit, _, hdivides, _⟩ := Siblings.exists_split htwo
  have hleft := hdivides.leftSize
  have hright := hdivides.rightSize
  unfold Allows
  exact ⟨pair, hsplit, by omega, by omega, by omega, by omega⟩

theorem Valid.merge_allowed (hvalid : config.Valid) {donor : Direction}
    {pair : Siblings (Node V)} (hkind : pair.left.kind = pair.right.kind)
    (hhelper : config.Allows kind (pair.side donor).size)
    (hneedy : (pair.side donor.opposite).size + 1 = config.minSize kind)
    (hfits : pair.left.size + pair.right.size ≤ config.capacity kind) :
    ∃ joined drained, Node.merge pair = .ok (joined, drained) ∧
      pair.JoinsTo joined drained ∧ config.Allows kind joined.size := by
  have hbounds := hvalid.minSize_bounds kind
  obtain ⟨joined, drained, hmerge, hjoins⟩ := Node.exists_merge hkind
  refine ⟨joined, drained, hmerge, hjoins, ?_⟩
  rw [hjoins.size_eq]
  unfold Allows at *
  cases donor <;> simp only [Siblings.side, Direction.opposite] at * <;> omega

theorem Valid.borrow_allowed (hvalid : config.Valid) {donor : Direction}
    {pair : Siblings (Node V)} (hkind : pair.left.kind = pair.right.kind)
    (hhelper : config.Allows kind (pair.side donor).size)
    (hneedy : (pair.side donor.opposite).size + 1 = config.minSize kind)
    (hfull : config.capacity kind < pair.left.size + pair.right.size) :
    ∃ shifted, Node.borrow donor pair = .ok shifted ∧
      pair.ShiftsTo donor shifted ∧ config.Allows kind shifted.left.size ∧
      config.Allows kind shifted.right.size := by
  have hbounds := hvalid.minSize_bounds kind
  unfold Allows at *
  have hsizes : 0 < pair.left.size ∧ 0 < pair.right.size ∧
      2 ≤ (pair.side donor).size := by
    cases donor <;> simp only [Siblings.side, Direction.opposite] at * <;> omega
  obtain ⟨hleft, hright, hgives⟩ := hsizes
  obtain ⟨joined, drained, hmerge, hjoins⟩ := Node.exists_merge hkind
  obtain ⟨shifted, hborrow, _, hshifts⟩ :=
    Siblings.exists_borrow donor hkind hgives hleft hright hmerge hjoins
  have hhanded := hshifts.handed
  have htaken := hshifts.taken
  refine ⟨shifted, hborrow, hshifts, ?_⟩
  cases donor <;> simp only [Siblings.side, Direction.opposite] at * <;> omega

theorem Valid.balances (hvalid : config.Valid) : config.Balances V kind where
  split := fun _ _ hsize => hvalid.split_allowed hsize
  repair := by
    intro donor pair hleft hright hneedy hhelper
    have hkind : pair.left.kind = pair.right.kind := hleft.trans hright.symm
    by_cases hfits : pair.left.size + pair.right.size ≤ config.capacity kind
    · rw [if_pos hfits]
      exact hvalid.merge_allowed hkind hhelper hneedy hfits
    · rw [if_neg hfits]
      exact hvalid.borrow_allowed hkind hhelper hneedy (by omega)

end Config

/-! ## Sizes in machine words -/

/-- The sizes of pages of one kind. -/
structure WordSizes where
  capacity : UInt64
  slots : UInt64
  minSize : UInt64
  deriving DecidableEq

namespace WordSizes

/-- A sum of words, unless it overflows. -/
def add? (a b : UInt64) : Option UInt64 :=
  if a.toNat + b.toNat < UInt64.size then some (a + b) else none

/-- A difference of words, unless it falls below zero. -/
def sub? (a b : UInt64) : Option UInt64 :=
  if b ≤ a then some (a - b) else none

def capacity? (degree : UInt64) : PageKind → Option UInt64
  | .leaf => some degree
  | .branch => add? degree 1

def minSize? (capacity : UInt64) : Option UInt64 := do
  let below ← sub? capacity 1
  add? (below / 2) 1

/-- The sizes that follow from a degree, unless a step overflows. -/
def ofDegree? (degree : UInt64) (kind : PageKind) : Option WordSizes := do
  let capacity ← capacity? degree kind
  let slots ← add? capacity 1
  let minSize ← minSize? capacity
  return { capacity, slots, minSize }

theorem add?_eq_some_iff {a b c : UInt64} :
    add? a b = some c ↔ c.toNat = a.toNat + b.toNat := by
  have hc : c.toNat < UInt64.size := c.toNat_lt
  unfold add?
  by_cases hsum : a.toNat + b.toNat < UInt64.size
  · rw [if_pos hsum, Option.some.injEq, ← UInt64.toNat_inj, UInt64.toNat_add,
      Nat.mod_eq_of_lt hsum, eq_comm]
  · rw [if_neg hsum]
    constructor
    · intro hnone
      cases hnone
    · intro heq
      omega

theorem capacity?_eq_some_iff {degree capacity : UInt64} {kind : PageKind} :
    capacity? degree kind = some capacity ↔
      capacity.toNat = ({ degree := degree.toNat } : Config).capacity kind := by
  cases kind with
  | leaf => simp [capacity?, Config.capacity, ← UInt64.toNat_inj, eq_comm]
  | branch => simp [capacity?, Config.capacity, add?_eq_some_iff]

theorem minSize?_eq_some_iff {capacity minSize : UInt64}
    (hcapacity : 0 < capacity.toNat) :
    minSize? capacity = some minSize ↔
      minSize.toNat = (capacity.toNat - 1) / 2 + 1 := by
  have hone : (1 : UInt64).toNat = 1 := rfl
  have htwo : (2 : UInt64).toNat = 2 := rfl
  have hle : 1 ≤ capacity := by
    rw [UInt64.le_iff_toNat_le, hone]
    exact hcapacity
  have hbelow : (capacity - 1).toNat = capacity.toNat - 1 := by
    rw [UInt64.toNat_sub_of_le _ _ hle, hone]
  have hsub : sub? capacity 1 = some (capacity - 1) := if_pos hle
  rw [minSize?, hsub, Option.bind_eq_bind, Option.bind_some, add?_eq_some_iff,
    UInt64.toNat_div, hbelow, hone, htwo]

/-- The words stand for the sizes of the configuration. -/
structure Agrees (sizes : WordSizes) (config : Config) (kind : PageKind) :
    Prop where
  capacity : sizes.capacity.toNat = config.capacity kind
  slots : sizes.slots.toNat = config.slots kind
  minSize : sizes.minSize.toNat = config.minSize kind

theorem ofDegree?_eq_some_iff {degree : UInt64} {kind : PageKind}
    {sizes : WordSizes} (hdegree : 0 < degree.toNat) :
    ofDegree? degree kind = some sizes ↔
      sizes.Agrees { degree := degree.toNat } kind := by
  have hpos : 0 < ({ degree := degree.toNat } : Config).capacity kind := by
    cases kind <;> simp [Config.capacity, hdegree]
  unfold ofDegree?
  simp only [Option.bind_eq_bind, Option.bind_eq_some_iff,
    capacity?_eq_some_iff, add?_eq_some_iff]
  constructor
  · rintro ⟨capacity, hcapacity, slots, hslots, minSize, hminSize, hsizes⟩
    cases hsizes
    rw [minSize?_eq_some_iff (by omega), hcapacity] at hminSize
    rw [hcapacity] at hslots
    exact ⟨hcapacity, hslots, hminSize⟩
  · rintro ⟨hcapacity, hslots, hminSize⟩
    refine ⟨sizes.capacity, hcapacity, sizes.slots, ?_, sizes.minSize, ?_, rfl⟩
    · rw [hslots, hcapacity]
      rfl
    · rw [minSize?_eq_some_iff (by omega), hminSize, hcapacity]
      rfl

theorem exists_ofDegree?_iff {degree : UInt64} {kind : PageKind}
    (hdegree : 0 < degree.toNat) :
    (∃ sizes, ofDegree? degree kind = some sizes) ↔
      ({ degree := degree.toNat } : Config).slots kind < UInt64.size := by
  simp only [ofDegree?_eq_some_iff hdegree]
  constructor
  · rintro ⟨sizes, hagrees⟩
    rw [← hagrees.slots]
    exact sizes.slots.toNat_lt
  · intro hslots
    have hbelow : ({ degree := degree.toNat } : Config).capacity kind <
          UInt64.size ∧
        ({ degree := degree.toNat } : Config).minSize kind < UInt64.size := by
      unfold Config.minSize Config.slots at *
      omega
    exact ⟨⟨.ofNat _, .ofNat _, .ofNat _⟩, UInt64.toNat_ofNat_of_lt' hbelow.1,
      UInt64.toNat_ofNat_of_lt' hslots, UInt64.toNat_ofNat_of_lt' hbelow.2⟩

theorem exists_ofDegree?_all_iff {degree : UInt64}
    (hdegree : 0 < degree.toNat) :
    (∀ kind, ∃ sizes, ofDegree? degree kind = some sizes) ↔
      degree.toNat + 2 < UInt64.size := by
  simp only [exists_ofDegree?_iff hdegree, Config.slots, Config.capacity]
  constructor
  · exact fun hall => hall .branch
  · intro hbranch kind
    cases kind with
    | leaf => exact Nat.lt_of_succ_lt hbranch
    | branch => exact hbranch

/-- The sizes that follow from an accepted degree go together.  Computed in
words they are the same, and they can be computed unless the degree is one of
the two largest words. -/
theorem suit_accepted_degrees (V : Type) {degree : UInt64}
    (haccepted : ({ degree := degree.toNat } : Config).validate = .ok ()) :
    ((∀ kind, ∃ sizes, ofDegree? degree kind = some sizes) ↔
        degree.toNat + 2 < UInt64.size) ∧
      (∀ kind sizes, ofDegree? degree kind = some sizes →
        sizes.Agrees { degree := degree.toNat } kind) ∧
      (∀ kind, ({ degree := degree.toNat } : Config).Balances V kind) ∧
      2 ≤ ({ degree := degree.toNat } : Config).minSize .branch := by
  have hvalid := Config.validate_eq_ok_iff.mp haccepted
  have hpos : 0 < degree.toNat := Nat.lt_of_lt_of_le (by decide) hvalid
  refine ⟨exists_ofDegree?_all_iff hpos, ?_, fun _ => hvalid.balances,
    (hvalid.minSize_bounds .branch).2.2⟩
  intro kind sizes hsizes
  exact (ofDegree?_eq_some_iff hpos).mp hsizes

/-- The largest degree whose sizes can all be computed in words. -/
theorem suit_accepted_degrees_up_to_limit :
    ({ degree := (18446744073709551613 : UInt64).toNat } : Config).validate =
        .ok () ∧
      ofDegree? 18446744073709551613 .branch =
        some ⟨18446744073709551614, 18446744073709551615,
          9223372036854775807⟩ ∧
      Agrees ⟨18446744073709551614, 18446744073709551615, 9223372036854775807⟩
        { degree := (18446744073709551613 : UInt64).toNat } .branch ∧
      ({ degree := (18446744073709551613 : UInt64).toNat } : Config).Balances
        Char .branch := by
  have haccepted : ({ degree := (18446744073709551613 : UInt64).toNat } :
      Config).validate = .ok () := by
    decide
  obtain ⟨_, hagrees, hbalances, _⟩ := suit_accepted_degrees Char haccepted
  have hsizes : ofDegree? 18446744073709551613 .branch =
      some ⟨18446744073709551614, 18446744073709551615,
        9223372036854775807⟩ := by
    decide
  exact ⟨haccepted, hsizes, hagrees .branch _ hsizes, hbalances .branch⟩

/-- The largest word is accepted as a degree.  A leaf of that capacity has no
word for its slots, and a branch not even one for its capacity. -/
theorem largest_accepted_degree_overflows :
    ({ degree := (18446744073709551615 : UInt64).toNat } : Config).validate =
        .ok () ∧
      capacity? 18446744073709551615 .branch = none ∧
      ofDegree? 18446744073709551615 .leaf = none ∧
      ofDegree? 18446744073709551615 .branch = none := by
  decide

end WordSizes

end LatchTree
