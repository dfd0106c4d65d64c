import LatchTree.Tree.Subtree
import LatchTree.Proofs.Page.Leaf
import LatchTree.Proofs.Page.Branch

/-!
# Subtrees as cells

A subtree lists what the page table holds below a page as cells: each page with
its node, a page before those below it.  The leaves of the subtree, their pages
and their entries are read off the cells, in order of their keys.
-/

namespace LatchTree

/-- A page with the node that it holds. -/
abbrev Cell (V : Type) := PageId × Node V

namespace Cell

variable {V : Type}

def leaf? : Cell V → Option (PageId × Leaf V)
  | (page, .leaf contents) => some (page, contents)
  | (_, .branch _) => none

def leavesIn (cells : List (Cell V)) : List (PageId × Leaf V) :=
  cells.filterMap leaf?

def leafPagesIn (cells : List (Cell V)) : List PageId :=
  (leavesIn cells).map (·.1)

def entriesIn (cells : List (Cell V)) : List (Key × V) :=
  (leavesIn cells).flatMap (·.2.entries)

@[simp] theorem leavesIn_nil : leavesIn ([] : List (Cell V)) = [] :=
  rfl

@[simp] theorem leavesIn_leaf (page : PageId) (contents : Leaf V)
    (cells : List (Cell V)) :
    leavesIn ((page, .leaf contents) :: cells) =
      (page, contents) :: leavesIn cells :=
  rfl

@[simp] theorem leavesIn_branch (page : PageId) (contents : Branch)
    (cells : List (Cell V)) :
    leavesIn ((page, .branch contents) :: cells) = leavesIn cells :=
  rfl

@[simp] theorem leavesIn_append (left right : List (Cell V)) :
    leavesIn (left ++ right) = leavesIn left ++ leavesIn right :=
  List.filterMap_append

@[simp] theorem leafPagesIn_append (left right : List (Cell V)) :
    leafPagesIn (left ++ right) = leafPagesIn left ++ leafPagesIn right := by
  simp [leafPagesIn]

@[simp] theorem entriesIn_append (left right : List (Cell V)) :
    entriesIn (left ++ right) = entriesIn left ++ entriesIn right := by
  simp [entriesIn]

@[simp] theorem leafPagesIn_branch (page : PageId) (contents : Branch)
    (cells : List (Cell V)) :
    leafPagesIn ((page, .branch contents) :: cells) = leafPagesIn cells :=
  rfl

@[simp] theorem entriesIn_branch (page : PageId) (contents : Branch)
    (cells : List (Cell V)) :
    entriesIn ((page, .branch contents) :: cells) = entriesIn cells :=
  rfl

theorem mem_leavesIn {cells : List (Cell V)} {leaf : PageId × Leaf V} :
    leaf ∈ leavesIn cells ↔ (leaf.1, Node.leaf leaf.2) ∈ cells := by
  unfold leavesIn
  rw [List.mem_filterMap]
  constructor
  · rintro ⟨⟨page, node⟩, hmem, hleaf⟩
    cases node with
    | leaf contents =>
        simp only [leaf?, Option.some.injEq] at hleaf
        subst hleaf
        exact hmem
    | branch contents => simp [leaf?] at hleaf
  · intro hmem
    exact ⟨_, hmem, rfl⟩

theorem leafPagesIn_sublist (cells : List (Cell V)) :
    (leafPagesIn cells).Sublist (cells.map (·.1)) := by
  induction cells with
  | nil => exact List.Sublist.slnil
  | cons cell rest ih =>
      obtain ⟨page, node⟩ := cell
      cases node with
      | leaf contents => exact ih.cons_cons page
      | branch contents => exact ih.cons page

end Cell

namespace Subtree

variable {V : Type}

def page : Subtree V → PageId
  | .leaf page _ => page
  | .branch page _ => page

/-- What a branch keeps of its children. -/
def slots (children : List (Key × Subtree V)) : List (Key × PageId) :=
  children.map fun e => (e.1, e.2.page)

def node : Subtree V → Node V
  | .leaf _ contents => .leaf contents
  | .branch _ children => .branch ⟨slots children⟩

def kind (t : Subtree V) : PageKind :=
  t.node.kind

def size (t : Subtree V) : Nat :=
  t.node.size

mutual

def cells : Subtree V → List (Cell V)
  | .leaf page contents => [(page, .leaf contents)]
  | .branch page children =>
      (page, .branch ⟨slots children⟩) :: cellsOf children

def cellsOf : List (Key × Subtree V) → List (Cell V)
  | [] => []
  | (_, child) :: rest => child.cells ++ cellsOf rest

end

def cellsBelow : Subtree V → List (Cell V)
  | .leaf _ _ => []
  | .branch _ children => cellsOf children

def leaves (t : Subtree V) : List (PageId × Leaf V) :=
  Cell.leavesIn t.cells

def leafPages (t : Subtree V) : List PageId :=
  Cell.leafPagesIn t.cells

def entries (t : Subtree V) : List (Key × V) :=
  Cell.entriesIn t.cells

@[simp] theorem slots_append (left right : List (Key × Subtree V)) :
    slots (left ++ right) = slots left ++ slots right := by
  simp [slots]

@[simp] theorem slots_cons (key : Key) (child : Subtree V)
    (rest : List (Key × Subtree V)) :
    slots ((key, child) :: rest) = (key, child.page) :: slots rest :=
  rfl

@[simp] theorem length_slots (children : List (Key × Subtree V)) :
    (slots children).length = children.length := by
  simp [slots]

@[simp] theorem size_leaf (page : PageId) (contents : Leaf V) :
    (Subtree.leaf page contents).size = contents.entries.length :=
  rfl

@[simp] theorem size_branch (page : PageId)
    (children : List (Key × Subtree V)) :
    (Subtree.branch page children).size = children.length :=
  length_slots children

@[simp] theorem kind_leaf (page : PageId) (contents : Leaf V) :
    (Subtree.leaf page contents).kind = .leaf :=
  rfl

@[simp] theorem kind_branch (page : PageId)
    (children : List (Key × Subtree V)) :
    (Subtree.branch page children).kind = .branch :=
  rfl

@[simp] theorem cellsOf_nil : cellsOf ([] : List (Key × Subtree V)) = [] :=
  rfl

@[simp] theorem cellsOf_cons (key : Key) (child : Subtree V)
    (rest : List (Key × Subtree V)) :
    cellsOf ((key, child) :: rest) = child.cells ++ cellsOf rest := by
  rw [cellsOf]

@[simp] theorem cellsOf_append (left right : List (Key × Subtree V)) :
    cellsOf (left ++ right) = cellsOf left ++ cellsOf right := by
  induction left with
  | nil => rfl
  | cons first left ih =>
      obtain ⟨key, child⟩ := first
      simp [ih]

theorem mem_cellsOf {children : List (Key × Subtree V)} {key : Key}
    {child : Subtree V} (hchild : (key, child) ∈ children) {cell : Cell V}
    (hcell : cell ∈ child.cells) : cell ∈ cellsOf children := by
  obtain ⟨left, right, rfl⟩ := List.append_of_mem hchild
  rw [cellsOf_append, cellsOf_cons]
  exact List.mem_append_right _ (List.mem_append_left _ hcell)

theorem exists_mem_of_cellsOf {children : List (Key × Subtree V)}
    {cell : Cell V} (hcell : cell ∈ cellsOf children) :
    ∃ e ∈ children, cell ∈ e.2.cells := by
  induction children with
  | nil => cases hcell
  | cons first rest ih =>
      rw [cellsOf_cons, List.mem_append] at hcell
      rcases hcell with hcell | hcell
      · exact ⟨first, List.mem_cons_self, hcell⟩
      · obtain ⟨e, he, hmem⟩ := ih hcell
        exact ⟨e, List.mem_cons_of_mem _ he, hmem⟩

theorem cells_eq (t : Subtree V) :
    t.cells = (t.page, t.node) :: t.cellsBelow := by
  cases t <;> simp [cells, page, node, cellsBelow]

theorem cells_leaf (page : PageId) (contents : Leaf V) :
    (Subtree.leaf page contents).cells = [(page, .leaf contents)] :=
  cells_eq _

theorem cells_branch (page : PageId) (children : List (Key × Subtree V)) :
    (Subtree.branch page children).cells =
      (page, .branch ⟨slots children⟩) :: cellsOf children :=
  cells_eq _

theorem leaves_leaf (page : PageId) (contents : Leaf V) :
    (Subtree.leaf page contents).leaves = [(page, contents)] := by
  simp [leaves, cells_eq, node, cellsBelow, Subtree.page]

theorem entries_leaf (page : PageId) (contents : Leaf V) :
    (Subtree.leaf page contents).entries = contents.entries := by
  simp [entries, Cell.entriesIn, cells_eq, node, cellsBelow]

theorem leaves_branch (page : PageId) (children : List (Key × Subtree V)) :
    (Subtree.branch page children).leaves =
      Cell.leavesIn (cellsOf children) := by
  simp [leaves, cells_branch]

theorem entries_branch (page : PageId) (children : List (Key × Subtree V)) :
    (Subtree.branch page children).entries =
      Cell.entriesIn (cellsOf children) := by
  simp [entries, cells_branch]

theorem entriesIn_cellsOf_cons (key : Key) (child : Subtree V)
    (rest : List (Key × Subtree V)) :
    Cell.entriesIn (cellsOf ((key, child) :: rest)) =
      child.entries ++ Cell.entriesIn (cellsOf rest) := by
  rw [cellsOf_cons, Cell.entriesIn_append]
  rfl

theorem entriesIn_cellsOf_nil :
    Cell.entriesIn (cellsOf ([] : List (Key × Subtree V))) = [] :=
  rfl

theorem leafPagesIn_cellsOf_cons (key : Key) (child : Subtree V)
    (rest : List (Key × Subtree V)) :
    Cell.leafPagesIn (cellsOf ((key, child) :: rest)) =
      child.leafPages ++ Cell.leafPagesIn (cellsOf rest) := by
  rw [cellsOf_cons, Cell.leafPagesIn_append]
  rfl

theorem leafPagesIn_cellsOf_nil :
    Cell.leafPagesIn (cellsOf ([] : List (Key × Subtree V))) = [] :=
  rfl

theorem exists_leaves_eq {t : Subtree V} {page : PageId} {contents : Leaf V}
    (hmem : (page, Node.leaf contents) ∈ t.cells) :
    ∃ before after, t.leaves = before ++ (page, contents) :: after := by
  have hleaf : (page, contents) ∈ t.leaves := Cell.mem_leavesIn.mpr hmem
  exact List.append_of_mem hleaf

theorem mem_cells_of_leaves_eq {t : Subtree V} {leaf : PageId × Leaf V}
    {before after : List (PageId × Leaf V)}
    (hleaves : t.leaves = before ++ leaf :: after) :
    (leaf.1, Node.leaf leaf.2) ∈ t.cells := by
  have hleaf : leaf ∈ t.leaves := by
    rw [hleaves]
    exact List.mem_append_right _ List.mem_cons_self
  exact Cell.mem_leavesIn.mp hleaf

theorem leafPages_branch (page : PageId) (children : List (Key × Subtree V)) :
    (Subtree.branch page children).leafPages =
      Cell.leafPagesIn (cellsOf children) := by
  simp [leafPages, cells_branch]

theorem leafPages_leaf (page : PageId) (contents : Leaf V) :
    (Subtree.leaf page contents).leafPages = [page] := by
  simp [leafPages, Cell.leafPagesIn, cells_eq, node, cellsBelow, Subtree.page]

end Subtree

end LatchTree
