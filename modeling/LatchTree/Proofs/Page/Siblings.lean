import LatchTree.Page.Node
import LatchTree.Proofs.Page.Leaf
import LatchTree.Proofs.Page.Branch

/-!
# Neighbouring nodes as one row

Two neighbouring nodes and the separator between them hold one row of entries.
The first child of the right node stands under the separator, whatever key its
own node keeps for it.  Merges, borrows and splits leave the row as it is and
move only its seam: a merge takes the seam away, a split makes one, and a borrow
moves it by one entry.  A borrow is thus a merge that is followed by a cut, and
the merge undoes the cut.
-/

namespace LatchTree

/-- The two fences of a leaf. -/
structure Fences where
  low : Key
  high : Option Key
  deriving DecidableEq

def Direction.opposite : Direction → Direction
  | .left => .right
  | .right => .left

namespace Node

variable {V : Type}

/-- The entries in their order: values in a leaf, children in a branch. -/
def row : Node V → List (Key × (V ⊕ PageId))
  | .leaf contents => contents.entries.map fun e => (e.1, .inl e.2)
  | .branch contents => contents.entries.map fun e => (e.1, .inr e.2)

/-- The entries of a node behind a separator.  The first child of a branch
stands under the separator. -/
def rowBehind (separator : Key) (node : Node V) : List (Key × (V ⊕ PageId)) :=
  match node.kind with
  | .leaf => node.row
  | .branch => Branch.rekeyEntries separator node.row

def fences? : Node V → Option Fences
  | .leaf contents => some ⟨contents.low, contents.high⟩
  | .branch _ => none

/-- Divides a node: the first `n` entries stay in it. -/
def cut (node : Node V) (n : Nat) : Option (Siblings (Node V)) :=
  match node with
  | .leaf contents => (contents.cut n).map (·.map .leaf)
  | .branch contents => (contents.cut n).map (·.map .branch)

@[simp] theorem length_row (node : Node V) : node.row.length = node.size := by
  cases node <;> simp [row, size]

end Node

namespace Siblings

variable {V : Type}

def side {α : Type} (pair : Siblings α) : Direction → α
  | .left => pair.left
  | .right => pair.right

/-- The entries of both nodes in their order. -/
def row (pair : Siblings (Node V)) : List (Key × (V ⊕ PageId)) :=
  pair.left.row ++ pair.right.rowBehind pair.separator

/-- The fences that two leaves have on their outer sides. -/
def fences? (pair : Siblings (Node V)) : Option Fences :=
  pair.left.fences?.bind fun left =>
    pair.right.fences?.map fun right => ⟨left.low, right.high⟩

/-- The separator is the first key of the right node, and leaves have a fence
there. -/
structure Meets (pair : Siblings (Node V)) : Prop where
  firstKey : pair.right.row.head?.map (·.1) = some pair.separator
  high : ∀ fences ∈ pair.left.fences?, fences.high = some pair.separator
  low : ∀ fences ∈ pair.right.fences?, fences.low = pair.separator

/-- The one node has taken over all that the pair held, and the other is
empty. -/
structure JoinsTo (pair : Siblings (Node V)) (joined drained : Node V) :
    Prop where
  kind : joined.kind = pair.left.kind
  row : joined.row = pair.row
  fences : joined.fences? = pair.fences?
  drained : drained.row = []

/-- The pair is the node, divided behind its first `n` entries. -/
structure Divides (pair : Siblings (Node V)) (node : Node V) (n : Nat) :
    Prop where
  leftKind : pair.left.kind = node.kind
  rightKind : pair.right.kind = node.kind
  left : pair.left.row = node.row.take n
  right : pair.right.row = node.row.drop n
  fences : pair.fences? = node.fences?
  meets : pair.Meets

/-- The donor has handed one entry to its neighbour. -/
structure ShiftsTo (donor : Direction) (before after : Siblings (Node V)) :
    Prop where
  leftKind : after.left.kind = before.left.kind
  rightKind : after.right.kind = before.right.kind
  row : after.row = before.row
  fences : after.fences? = before.fences?
  meets : after.Meets
  handed : (after.side donor).size + 1 = (before.side donor).size
  taken : (after.side donor.opposite).size =
    (before.side donor.opposite).size + 1

/-- The entries are those of the other pair.  Only the key of the first child of
the right node may be another one. -/
structure Restores (pair other : Siblings (Node V)) : Prop where
  left : pair.left.row = other.left.row
  right : ∀ key, pair.right.rowBehind key = other.right.rowBehind key

/-- The size of the left node after a borrow. -/
def seamAfter (donor : Direction) (pair : Siblings (Node V)) : Nat :=
  match donor with
  | .right => pair.left.size + 1
  | .left => pair.left.size - 1

end Siblings

namespace Node

variable {V : Type} {node joined drained : Node V}
  {pair shifted : Siblings (Node V)} {n : Nat}

@[simp] theorem length_rowBehind (separator : Key) (node : Node V) :
    (node.rowBehind separator).length = node.size := by
  unfold rowBehind
  cases node.kind <;> simp

theorem rowBehind_of_firstKey {separator : Key}
    (hfirst : node.row.head?.map (·.1) = some separator) :
    node.rowBehind separator = node.row := by
  unfold rowBehind
  cases node.kind with
  | leaf => rfl
  | branch =>
      cases hrow : node.row with
      | nil => simp [hrow] at hfirst
      | cons first rest =>
          obtain ⟨key, child⟩ := first
          simp only [hrow, List.head?_cons, Option.map_some,
            Option.some.injEq] at hfirst
          simp [Branch.rekeyEntries, hfirst]

theorem rowBehind_congr {other : Node V} {separator : Key}
    (hkind : node.kind = other.kind)
    (hrow : node.row = other.rowBehind separator) (key : Key) :
    node.rowBehind key = other.rowBehind key := by
  unfold rowBehind at *
  rw [hkind, hrow]
  cases other.kind with
  | leaf => rfl
  | branch => cases other.row <;> rfl

/-! ## Merges -/

theorem exists_merge (hkind : pair.left.kind = pair.right.kind) :
    ∃ joined drained, Node.merge pair = .ok (joined, drained) ∧
      pair.JoinsTo joined drained := by
  obtain ⟨left | left, separator, right | right⟩ := pair
  · refine ⟨_, _, rfl, rfl, ?_, rfl, rfl⟩
    simp [Siblings.row, row, rowBehind, kind, Leaf.merge]
  · simp [kind] at hkind
  · simp [kind] at hkind
  · refine ⟨_, _, rfl, rfl, ?_, rfl, rfl⟩
    simp [Siblings.row, row, rowBehind, kind, Branch.merge, Branch.rekeyed_eq,
      Branch.rekeyEntries_map]

/-! ## Cuts -/

theorem exists_cut (hn : n < node.size) : ∃ pair, node.cut n = some pair := by
  cases node with
  | leaf contents =>
      obtain ⟨parts, hparts⟩ := Leaf.cut_isSome contents hn
      simp [cut, hparts]
  | branch contents =>
      obtain ⟨parts, hparts⟩ := Branch.cutEntries_isSome hn
      simp [cut, Branch.cut, hparts]

theorem cut_leaf_cases {contents : Leaf V}
    (hcut : (Node.leaf contents).cut n = some pair) :
    ∃ first rest, contents.entries.drop n = first :: rest ∧
      pair = ⟨
        .leaf { contents with
          entries := contents.entries.take n, high := some first.1 },
        first.1,
        .leaf ⟨first :: rest, first.1, contents.high⟩⟩ := by
  unfold cut Leaf.cut at hcut
  cases hdrop : contents.entries.drop n with
  | nil => simp [hdrop] at hcut
  | cons first rest =>
      simp only [hdrop, Option.map_some, Option.some.injEq] at hcut
      exact ⟨first, rest, rfl, hcut.symm⟩

theorem cut_branch_cases {contents : Branch}
    (hcut : (Node.branch contents : Node V).cut n = some pair) :
    ∃ first rest, contents.entries.drop n = first :: rest ∧
      pair = ⟨.branch ⟨contents.entries.take n⟩, first.1,
        .branch ⟨first :: rest⟩⟩ := by
  unfold cut Branch.cut Branch.cutEntries at hcut
  cases hdrop : contents.entries.drop n with
  | nil => simp [hdrop] at hcut
  | cons first rest =>
      simp only [hdrop, Option.map_some, Option.some.injEq] at hcut
      exact ⟨first, rest, rfl, hcut.symm⟩

theorem divides_of_cut (hcut : node.cut n = some pair) :
    pair.Divides node n := by
  cases node with
  | leaf contents =>
      obtain ⟨first, rest, hdrop, rfl⟩ := cut_leaf_cases hcut
      exact {
        leftKind := rfl
        rightKind := rfl
        left := by simp [row, List.map_take]
        right := by simp [row, ← List.map_drop, hdrop]
        fences := rfl
        meets := ⟨rfl, by simp [fences?], by simp [fences?]⟩ }
  | branch contents =>
      obtain ⟨first, rest, hdrop, rfl⟩ := cut_branch_cases hcut
      exact {
        leftKind := rfl
        rightKind := rfl
        left := by simp [row, List.map_take]
        right := by simp [row, ← List.map_drop, hdrop]
        fences := rfl
        meets := ⟨rfl, by simp [fences?], by simp [fences?]⟩ }

/-- A merge undoes a cut. -/
theorem merge_of_cut (hcut : node.cut n = some pair) :
    ∃ drained, Node.merge pair = .ok (node, drained) ∧ drained.row = [] := by
  cases node with
  | leaf contents =>
      obtain ⟨first, rest, hdrop, rfl⟩ := cut_leaf_cases hcut
      have hentries := List.take_append_drop n contents.entries
      rw [hdrop] at hentries
      simp [Node.merge, Leaf.merge, hentries, row, Leaf.drained]
  | branch contents =>
      obtain ⟨first, rest, hdrop, rfl⟩ := cut_branch_cases hcut
      have hentries := List.take_append_drop n contents.entries
      rw [hdrop] at hentries
      simp [Node.merge, Branch.merge, Branch.rekeyed, hentries, row,
        Branch.drained]

/-! ## Splits and borrows as cuts -/

theorem split_of_cut (hcut : node.cut (node.size - node.size / 2) = some pair) :
    node.split = .ok pair := by
  cases node with
  | leaf contents =>
      obtain ⟨parts, hparts, rfl⟩ := Option.map_eq_some_iff.mp hcut
      simp only [size, ← Leaf.split_eq_cut] at hparts
      simp [split, hparts]
  | branch contents =>
      obtain ⟨parts, hparts, rfl⟩ := Option.map_eq_some_iff.mp hcut
      simp only [size, ← Branch.split_eq_cut] at hparts
      simp [split, hparts]

theorem borrow_of_cut (donor : Direction) (hleft : 0 < pair.left.size)
    (hright : 0 < pair.right.size)
    (hmerge : Node.merge pair = .ok (joined, drained))
    (hcut : joined.cut (pair.seamAfter donor) = some shifted) :
    Node.borrow donor pair = .ok shifted := by
  obtain ⟨left | left, separator, right | right⟩ := pair
  · cases hmerge
    obtain ⟨parts, hparts, rfl⟩ := Option.map_eq_some_iff.mp hcut
    have hleftEntries : left.entries ≠ [] := List.ne_nil_of_length_pos hleft
    have hborrow : Leaf.borrow donor ⟨left, separator, right⟩ = some parts := by
      rw [← hparts]
      cases donor with
      | right => exact Leaf.shiftLeft_eq_cut _
      | left => exact Leaf.shiftRight_eq_cut _ hleftEntries
    simp [Node.borrow, hborrow]
  · simp [Node.merge] at hmerge
  · simp [Node.merge] at hmerge
  · cases hmerge
    obtain ⟨parts, hparts, rfl⟩ := Option.map_eq_some_iff.mp hcut
    have hleftEntries : left.entries ≠ [] := List.ne_nil_of_length_pos hleft
    have hrightEntries : right.entries ≠ [] := List.ne_nil_of_length_pos hright
    have hborrow :
        Branch.borrow donor ⟨left, separator, right⟩ = some parts := by
      rw [← hparts]
      cases donor with
      | right => exact Branch.shiftLeft_eq_cut _
      | left => exact Branch.shiftRight_eq_cut _ hleftEntries hrightEntries
    simp [Node.borrow, hborrow]

end Node

namespace Siblings

variable {V : Type} {node joined drained : Node V}
  {pair shifted : Siblings (Node V)} {n : Nat}

/-! ## Rows and sizes -/

@[simp] theorem length_row (pair : Siblings (Node V)) :
    pair.row.length = pair.left.size + pair.right.size := by
  simp [row]

theorem Divides.row_eq (hdivides : pair.Divides node n) :
    pair.row = node.row := by
  rw [row, Node.rowBehind_of_firstKey hdivides.meets.firstKey, hdivides.left,
    hdivides.right, List.take_append_drop]

theorem Divides.leftSize (hdivides : pair.Divides node n) :
    pair.left.size = min n node.size := by
  rw [← Node.length_row, hdivides.left, List.length_take, Node.length_row]

theorem Divides.rightSize (hdivides : pair.Divides node n) :
    pair.right.size = node.size - n := by
  rw [← Node.length_row, hdivides.right, List.length_drop, Node.length_row]

theorem JoinsTo.size_eq (hjoins : pair.JoinsTo joined drained) :
    joined.size = pair.left.size + pair.right.size := by
  rw [← Node.length_row, hjoins.row, length_row]

theorem seamAfter_lt {donor : Direction}
    (hgives : 2 ≤ (pair.side donor).size) (hright : 0 < pair.right.size) :
    pair.seamAfter donor < pair.left.size + pair.right.size := by
  cases donor <;> simp only [side, seamAfter] at * <;> omega

/-! ## Borrows -/

theorem shiftsTo_of_divides {donor : Direction}
    (hkind : pair.left.kind = pair.right.kind)
    (hgives : 2 ≤ (pair.side donor).size) (hright : 0 < pair.right.size)
    (hjoins : pair.JoinsTo joined drained)
    (hdivides : shifted.Divides joined (pair.seamAfter donor)) :
    pair.ShiftsTo donor shifted := by
  have hseam := seamAfter_lt hgives hright
  have hleftSize := hdivides.leftSize
  have hrightSize := hdivides.rightSize
  rw [hjoins.size_eq] at hleftSize hrightSize
  exact {
    leftKind := hdivides.leftKind.trans hjoins.kind
    rightKind := (hdivides.rightKind.trans hjoins.kind).trans hkind
    row := hdivides.row_eq.trans hjoins.row
    fences := hdivides.fences.trans hjoins.fences
    meets := hdivides.meets
    handed := by
      cases donor <;> simp only [side, seamAfter] at * <;> omega
    taken := by
      cases donor <;>
        simp only [side, seamAfter, Direction.opposite] at * <;> omega }

theorem exists_borrow (donor : Direction)
    (hkind : pair.left.kind = pair.right.kind)
    (hgives : 2 ≤ (pair.side donor).size) (hleft : 0 < pair.left.size)
    (hright : 0 < pair.right.size)
    (hmerge : Node.merge pair = .ok (joined, drained))
    (hjoins : pair.JoinsTo joined drained) :
    ∃ shifted, Node.borrow donor pair = .ok shifted ∧
      joined.cut (pair.seamAfter donor) = some shifted ∧
      pair.ShiftsTo donor shifted := by
  have hseam := seamAfter_lt hgives hright
  rw [← hjoins.size_eq] at hseam
  obtain ⟨shifted, hcut⟩ := Node.exists_cut hseam
  exact ⟨shifted, Node.borrow_of_cut donor hleft hright hmerge hcut, hcut,
    shiftsTo_of_divides hkind hgives hright hjoins
      (Node.divides_of_cut hcut)⟩

/-- Divided at the old seam, the row gives the old nodes back. -/
theorem restores_of_divides (hkind : pair.left.kind = pair.right.kind)
    (hjoins : pair.JoinsTo joined drained)
    (hdivides : shifted.Divides joined pair.left.size) :
    shifted.Restores pair := by
  have hjoined : joined.row =
      pair.left.row ++ pair.right.rowBehind pair.separator := hjoins.row
  have hright : shifted.right.row = pair.right.rowBehind pair.separator := by
    rw [hdivides.right, hjoined, ← Node.length_row, List.drop_left]
  constructor
  · rw [hdivides.left, hjoined, ← Node.length_row, List.take_left]
  · apply Node.rowBehind_congr _ hright
    rw [hdivides.rightKind, hjoins.kind, hkind]

theorem exists_borrow_back {donor : Direction}
    (hkind : pair.left.kind = pair.right.kind)
    (hgives : 2 ≤ (pair.side donor).size) (hleft : 0 < pair.left.size)
    (hright : 0 < pair.right.size) (hjoins : pair.JoinsTo joined drained)
    (hcut : joined.cut (pair.seamAfter donor) = some shifted)
    (hshifts : pair.ShiftsTo donor shifted) :
    ∃ back, Node.borrow donor.opposite shifted = .ok back ∧
      back.Restores pair := by
  -- Both borrows cut one node, the two merged, and the second one cuts it at
  -- the old seam.
  obtain ⟨_, hmerge, _⟩ := Node.merge_of_cut hcut
  have hhanded := hshifts.handed
  have htaken := hshifts.taken
  have hsizes : 0 < shifted.left.size ∧ 0 < shifted.right.size ∧
      shifted.seamAfter donor.opposite = pair.left.size := by
    cases donor <;>
      simp only [side, seamAfter, Direction.opposite] at * <;> omega
  obtain ⟨hshiftedLeft, hshiftedRight, hseam⟩ := hsizes
  have hposition : pair.left.size < joined.size := by
    rw [hjoins.size_eq]
    omega
  obtain ⟨back, hcutBack⟩ := Node.exists_cut hposition
  have hborrow : Node.borrow donor.opposite shifted = .ok back := by
    apply Node.borrow_of_cut _ hshiftedLeft hshiftedRight hmerge
    rw [hseam, hcutBack]
  exact ⟨back, hborrow,
    restores_of_divides hkind hjoins (Node.divides_of_cut hcutBack)⟩

/-! ## Splits -/

theorem exists_split (hsize : 2 ≤ node.size) :
    ∃ pair drained, node.split = .ok pair ∧ pair.row = node.row ∧
      pair.Divides node (node.size - node.size / 2) ∧
      Node.merge pair = .ok (node, drained) ∧ drained.row = [] := by
  have hposition : node.size - node.size / 2 < node.size := by omega
  obtain ⟨pair, hcut⟩ := Node.exists_cut hposition
  have hdivides := Node.divides_of_cut hcut
  obtain ⟨drained, hmerge, hdrained⟩ := Node.merge_of_cut hcut
  exact ⟨pair, drained, Node.split_of_cut hcut, hdivides.row_eq, hdivides,
    hmerge, hdrained⟩

/-- Merges and borrows keep the row of two neighbours, and a split keeps the row
of a node.  A borrow to one side can be taken back by a borrow to the other, and
a split by a merge. -/
theorem row_is_kept :
    (∀ pair : Siblings (Node V), pair.left.kind = pair.right.kind →
      0 < pair.left.size → 0 < pair.right.size →
        (∃ joined drained, Node.merge pair = .ok (joined, drained) ∧
          pair.JoinsTo joined drained) ∧
        ∀ donor, 2 ≤ (pair.side donor).size →
          ∃ shifted back, Node.borrow donor pair = .ok shifted ∧
            pair.ShiftsTo donor shifted ∧
            Node.borrow donor.opposite shifted = .ok back ∧
            back.Restores pair) ∧
    ∀ node : Node V, 2 ≤ node.size →
      ∃ pair drained, node.split = .ok pair ∧ pair.row = node.row ∧
        pair.Divides node (node.size - node.size / 2) ∧
        Node.merge pair = .ok (node, drained) ∧ drained.row = [] := by
  constructor
  · intro pair hkind hleft hright
    obtain ⟨joined, drained, hmerge, hjoins⟩ := Node.exists_merge hkind
    refine ⟨⟨joined, drained, hmerge, hjoins⟩, ?_⟩
    intro donor hgives
    obtain ⟨shifted, hborrow, hcut, hshifts⟩ :=
      exists_borrow donor hkind hgives hleft hright hmerge hjoins
    obtain ⟨back, hback, hrestores⟩ :=
      exists_borrow_back hkind hgives hleft hright hjoins hcut hshifts
    exact ⟨shifted, back, hborrow, hshifts, hback, hrestores⟩
  · intro node hsize
    exact exists_split hsize

/-- The first child of the right branch takes the separator with it, and comes
back with it. -/
theorem row_is_kept_through_separator :
    ∃ pair shifted back : Siblings (Node Char),
      pair = ⟨.branch ⟨[(0, 1), (10, 2)]⟩, 20,
        .branch ⟨[(99, 3), (30, 4), (40, 5)]⟩⟩ ∧
      pair.left.kind = pair.right.kind ∧ 0 < pair.left.size ∧
      0 < pair.right.size ∧ 2 ≤ (pair.side .right).size ∧
      Node.borrow .right pair = .ok shifted ∧
      shifted = ⟨.branch ⟨[(0, 1), (10, 2), (20, 3)]⟩, 30,
        .branch ⟨[(30, 4), (40, 5)]⟩⟩ ∧
      pair.ShiftsTo .right shifted ∧
      Node.borrow .left shifted = .ok back ∧ back.Restores pair ∧
      back.right.row ≠ pair.right.row := by
  obtain ⟨shifted, back, hborrow, hshifts, hback, hrestores⟩ :=
    (row_is_kept.1 (⟨.branch ⟨[(0, 1), (10, 2)]⟩, 20,
      .branch ⟨[(99, 3), (30, 4), (40, 5)]⟩⟩ : Siblings (Node Char))
      rfl (by decide) (by decide)).2 .right (by decide)
  have hshifted : shifted = ⟨.branch ⟨[(0, 1), (10, 2), (20, 3)]⟩, 30,
      .branch ⟨[(30, 4), (40, 5)]⟩⟩ := by
    cases hborrow
    rfl
  refine ⟨_, shifted, back, rfl, rfl, by decide, by decide, by decide, hborrow,
    hshifted, hshifts, hback, hrestores, ?_⟩
  subst hshifted
  cases hback
  decide

end Siblings

end LatchTree
