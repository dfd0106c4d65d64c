import LatchTree.Proofs.Page.Siblings
import LatchTree.Proofs.Subtree.Fits

/-!
# Merging and cutting subtrees

A merge joins two neighbouring subtrees under the page of the left one.  A cut
divides a subtree at a position in its own page; what lies behind the position
goes to a sibling page.  A split is a cut, and a borrow is a merge followed by a
cut one position beside the old seam, so two facts about fitting subtrees cover
all three.
-/

namespace LatchTree

namespace Subtree

variable {V : Type}

/-- Joins two siblings of one kind. -/
def merge : Siblings (Subtree V) → Subtree V
  | ⟨.leaf page left, separator, .leaf _ right⟩ =>
      .leaf page (Leaf.merge ⟨left, separator, right⟩)
  | ⟨.branch page left, separator, .branch _ right⟩ =>
      .branch page (left ++ Branch.rekeyEntries separator right)
  | ⟨left, _, _⟩ => left

/-- Keeps the first `n` entries of the page and moves the others to the page
`sibling`. -/
def cut (t : Subtree V) (n : Nat) (sibling : PageId) :
    Option (Siblings (Subtree V)) :=
  match t with
  | .leaf page contents =>
      (contents.cut n).map fun pair =>
        ⟨.leaf page pair.left, pair.separator, .leaf sibling pair.right⟩
  | .branch page children =>
      (Branch.cutEntries children n).map fun pair =>
        ⟨.branch page pair.left, pair.separator, .branch sibling pair.right⟩

/-- The cut of a split: of an odd number of entries the left part keeps one
more. -/
def halve (t : Subtree V) (sibling : PageId) : Option (Siblings (Subtree V)) :=
  t.cut (t.size - t.size / 2) sibling

def borrow (donor : Direction) (pair : Siblings (Subtree V)) :
    Option (Siblings (Subtree V)) :=
  match donor with
  | .right => (merge pair).cut (pair.left.size + 1) pair.right.page
  | .left => (merge pair).cut (pair.left.size - 1) pair.right.page

theorem leafPages_eq (t : Subtree V) :
    t.leafPages =
      match t.kind with
      | .leaf => [t.page]
      | .branch => Cell.leafPagesIn t.cellsBelow := by
  cases t with
  | leaf page contents => exact leafPages_leaf page contents
  | branch page children => exact leafPages_branch page children

/-! ## What a merge and a cut keep -/

section Merge

variable {pair : Siblings (Subtree V)}

theorem merge_page (pair : Siblings (Subtree V)) :
    (merge pair).page = pair.left.page := by
  obtain ⟨left | left, separator, right | right⟩ := pair <;> rfl

theorem merge_kind (pair : Siblings (Subtree V)) :
    (merge pair).kind = pair.left.kind := by
  obtain ⟨left | left, separator, right | right⟩ := pair <;> rfl

theorem merge_size (hkind : pair.left.kind = pair.right.kind) :
    (merge pair).size = pair.left.size + pair.right.size := by
  obtain ⟨left | left, separator, right | right⟩ := pair
  · simp [merge, Leaf.merge]
  · simp at hkind
  · simp at hkind
  · simp [merge]

theorem cellsOf_rekey (key : Key) (children : List (Key × Subtree V)) :
    cellsOf (Branch.rekeyEntries key children) = cellsOf children := by
  cases children with
  | nil => rfl
  | cons first rest =>
      obtain ⟨_, child⟩ := first
      rw [Branch.rekeyEntries, cellsOf_cons, cellsOf_cons]

theorem merge_cellsBelow (hkind : pair.left.kind = pair.right.kind) :
    (merge pair).cellsBelow =
      pair.left.cellsBelow ++ pair.right.cellsBelow := by
  obtain ⟨left | left, separator, right | right⟩ := pair
  · rfl
  · simp at hkind
  · simp at hkind
  · simp [merge, cellsBelow, cellsOf_rekey]

theorem merge_entries (hkind : pair.left.kind = pair.right.kind) :
    (merge pair).entries = pair.left.entries ++ pair.right.entries := by
  obtain ⟨left | left, separator, right | right⟩ := pair
  · simp [merge, entries_leaf, Leaf.merge]
  · simp at hkind
  · simp at hkind
  · simp [merge, entries_branch, cellsOf_rekey]

theorem leafPages_pair (hkind : pair.left.kind = pair.right.kind) :
    pair.left.leafPages ++ pair.right.leafPages =
      match pair.left.kind with
      | .leaf => [pair.left.page, pair.right.page]
      | .branch =>
          Cell.leafPagesIn (pair.left.cellsBelow ++ pair.right.cellsBelow) := by
  rw [leafPages_eq, leafPages_eq, ← hkind]
  cases pair.left.kind with
  | leaf => rfl
  | branch => simp

theorem merge_leafPages (hkind : pair.left.kind = pair.right.kind) :
    (merge pair).leafPages =
      match pair.left.kind with
      | .leaf => [pair.left.page]
      | .branch =>
          Cell.leafPagesIn (pair.left.cellsBelow ++ pair.right.cellsBelow) := by
  rw [leafPages_eq, merge_kind, merge_page, merge_cellsBelow hkind]

end Merge

/-- The parts into which a subtree is cut. -/
structure CutInto (t : Subtree V) (n : Nat) (sibling : PageId)
    (pair : Siblings (Subtree V)) : Prop where
  leftPage : pair.left.page = t.page
  rightPage : pair.right.page = sibling
  leftKind : pair.left.kind = t.kind
  rightKind : pair.right.kind = t.kind
  leftSize : pair.left.size = n
  rightSize : pair.right.size = t.size - n
  position : n < t.size
  cellsBelow : pair.left.cellsBelow ++ pair.right.cellsBelow = t.cellsBelow
  entries : pair.left.entries ++ pair.right.entries = t.entries

theorem exists_cut {t : Subtree V} {n : Nat} (hn : n < t.size)
    (sibling : PageId) : ∃ pair, t.cut n sibling = some pair := by
  cases t with
  | leaf page contents =>
      obtain ⟨pair, hpair⟩ := Leaf.cut_isSome contents hn
      exact ⟨_, by rw [cut, hpair, Option.map_some]⟩
  | branch page children =>
      rw [size_branch] at hn
      obtain ⟨pair, hpair⟩ := Branch.cutEntries_isSome hn
      exact ⟨_, by rw [cut, hpair, Option.map_some]⟩

section Cut

variable {t : Subtree V} {n : Nat} {sibling : PageId}
  {pair : Siblings (Subtree V)}

theorem cutInto (hcut : t.cut n sibling = some pair) :
    t.CutInto n sibling pair := by
  cases t with
  | leaf page contents =>
      obtain ⟨parts, hparts, rfl⟩ := Option.map_eq_some_iff.mp hcut
      obtain ⟨hleft, hright⟩ := Leaf.cut_entries hparts
      have hn : n < contents.entries.length := by
        by_contra hle
        rw [Leaf.cut, List.drop_eq_nil_of_le (by omega)] at hparts
        simp at hparts
      exact {
        leftPage := rfl
        rightPage := rfl
        leftKind := rfl
        rightKind := rfl
        leftSize := by
          rw [size_leaf, hleft, List.length_take]
          omega
        rightSize := by
          rw [size_leaf, hright, List.length_drop, size_leaf]
        position := hn
        cellsBelow := rfl
        entries := by
          rw [entries_leaf, entries_leaf, entries_leaf, hleft, hright,
            List.take_append_drop] }
  | branch page children =>
      obtain ⟨parts, hparts, rfl⟩ := Option.map_eq_some_iff.mp hcut
      obtain ⟨child, rest, hleft, hright, hchildren⟩ :=
        Branch.cutEntries_eq_some hparts
      have hlength := congrArg List.length hchildren
      rw [List.length_append, hright, List.length_cons] at hlength
      have hn : parts.left.length = n := by
        rw [hleft, List.length_take] at hlength ⊢
        omega
      exact {
        leftPage := rfl
        rightPage := rfl
        leftKind := rfl
        rightKind := rfl
        leftSize := by rw [size_branch, hn]
        rightSize := by
          rw [size_branch, size_branch, hright, List.length_cons]
          omega
        position := by
          rw [size_branch]
          omega
        cellsBelow := by
          simp only [Subtree.cellsBelow, hchildren, cellsOf_append]
        entries := by
          simp only [entries_branch, hchildren, cellsOf_append,
            Cell.entriesIn_append] }

/-- The sibling of a leaf is a new leaf behind it.  The leaves below a branch
stay the same. -/
theorem CutInto.leafPages (hparts : t.CutInto n sibling pair) :
    pair.left.leafPages ++ pair.right.leafPages =
      match t.kind with
      | .leaf => [t.page, sibling]
      | .branch => t.leafPages := by
  rw [leafPages_pair (hparts.leftKind.trans hparts.rightKind.symm),
    leafPages_eq, hparts.leftKind, hparts.leftPage, hparts.rightPage,
    hparts.cellsBelow]
  cases t.kind with
  | leaf => rfl
  | branch => rfl

theorem CutInto.leafPages_merge {shifted : Siblings (Subtree V)}
    (hkind : pair.left.kind = pair.right.kind)
    (hparts : (merge pair).CutInto n pair.right.page shifted) :
    shifted.left.leafPages ++ shifted.right.leafPages =
      pair.left.leafPages ++ pair.right.leafPages := by
  rw [leafPages_pair (hparts.leftKind.trans hparts.rightKind.symm),
    leafPages_pair hkind, hparts.leftKind, hparts.leftPage, hparts.rightPage,
    hparts.cellsBelow, merge_kind, merge_page, merge_cellsBelow hkind]

theorem CutInto.cells_perm (hparts : t.CutInto n sibling pair) :
    (pair.left.cells ++ pair.right.cells).Perm
      ((t.page, pair.left.node) :: (sibling, pair.right.node) ::
        t.cellsBelow) := by
  rw [cells_eq, cells_eq, hparts.leftPage, hparts.rightPage,
    ← hparts.cellsBelow]
  simp only [List.cons_append]
  exact List.Perm.cons _ List.perm_middle

end Cut

/-! ## Fitting parts -/

namespace Fits

variable {config : Config} {height : Nat}

theorem merge {lower upper : Option Key} {pair : Siblings (Subtree V)}
    (hleft : pair.left.Fits config height ⟨lower, some pair.separator⟩)
    (hright : pair.right.Fits config height ⟨some pair.separator, upper⟩) :
    (Subtree.merge pair).Fits config height ⟨lower, upper⟩ := by
  have hkind : pair.left.kind = pair.right.kind :=
    hleft.kind_eq.trans hright.kind_eq.symm
  obtain ⟨left | ⟨page, children⟩, separator, right | ⟨other, others⟩⟩ := pair
  · cases hleft with
    | leaf hleft =>
        cases hright with
        | leaf hright => exact .leaf (hleft.merge hright)
  · simp at hkind
  · simp at hkind
  · cases hleft with
    | branch hne hsized hchildren =>
        cases hright with
        | branch hneRight hsizedRight hright =>
            refine .branch (fun hnil => hne (List.append_eq_nil_iff.mp hnil).1)
              ?_ ?_
            · intro e he
              rcases List.mem_append.mp he with he | he
              · exact hsized e he
              · obtain ⟨⟨key, child⟩, rest, rfl⟩ :=
                  List.exists_cons_of_ne_nil hneRight
                rcases List.mem_cons.mp he with rfl | he
                · exact hsizedRight (key, child) List.mem_cons_self
                · exact hsizedRight e (List.mem_cons_of_mem _ he)
            · intro c hc
              obtain ⟨first, rest, rfl⟩ := List.exists_cons_of_ne_nil hneRight
              rw [childBounds_append _ hne, childBounds_rekey] at hc
              rcases List.mem_append.mp hc with hc | hc
              · exact hchildren c hc
              · exact hright c hc

theorem cut {bounds : Bounds} {t : Subtree V} {n : Nat} {sibling : PageId}
    {pair : Siblings (Subtree V)}
    (hfits : t.Fits config height bounds) (hpos : 0 < n)
    (hcut : t.cut n sibling = some pair) :
    pair.left.Fits config height ⟨bounds.lower, some pair.separator⟩ ∧
      pair.right.Fits config height ⟨some pair.separator, bounds.upper⟩ := by
  cases hfits with
  | leaf hleaf =>
      obtain ⟨parts, hparts, rfl⟩ := Option.map_eq_some_iff.mp hcut
      obtain ⟨hleft, hright⟩ := hleaf.cut hpos hparts
      exact ⟨.leaf hleft, .leaf hright⟩
  | @branch below _ page children hne hsized hchildren =>
      obtain ⟨parts, hparts, rfl⟩ := Option.map_eq_some_iff.mp hcut
      obtain ⟨child, rest, hleft, hright, heq⟩ :=
        Branch.cutEntries_eq_some hparts
      have hneLeft : parts.left ≠ [] := by
        rw [hleft, Ne, List.take_eq_nil_iff]
        rintro (hzero | hnil)
        · omega
        · exact hne hnil
      have hbounds := childBounds_append bounds hneLeft parts.right
      rw [← heq] at hbounds
      rw [hbounds] at hchildren
      rw [heq] at hsized
      simp only [hright, firstKey_cons, Option.some_or] at hchildren
      constructor
      · exact .branch hneLeft
          (fun e he => hsized e (List.mem_append_left _ he))
          (fun c hc => hchildren c (List.mem_append_left _ hc))
      · refine .branch (by simp [hright])
          (fun e he => hsized e (List.mem_append_right _ he)) ?_
        intro c hc
        rw [hright] at hc
        exact hchildren c (List.mem_append_right _ hc)

end Fits

/-! ## The same on nodes -/

theorem node_cut {t : Subtree V} {n : Nat} {sibling : PageId}
    {pair : Siblings (Subtree V)} (hcut : t.cut n sibling = some pair) :
    t.node.cut n = some (pair.map node) := by
  cases t with
  | leaf page contents =>
      obtain ⟨parts, hparts, rfl⟩ := Option.map_eq_some_iff.mp hcut
      simp [node, Node.cut, hparts, Siblings.map]
  | branch page children =>
      obtain ⟨parts, hparts, rfl⟩ := Option.map_eq_some_iff.mp hcut
      simp [node, Node.cut, Branch.cut, slots, Branch.cutEntries_map, hparts,
        Siblings.map]

theorem node_split {t : Subtree V} {sibling : PageId}
    {pair : Siblings (Subtree V)} (hcut : t.halve sibling = some pair) :
    t.node.split = .ok (pair.map node) :=
  Node.split_of_cut (node_cut hcut)

theorem slots_rekey (key : Key) (children : List (Key × Subtree V)) :
    slots (Branch.rekeyEntries key children) =
      Branch.rekeyEntries key (slots children) :=
  (Branch.rekeyEntries_map page key children).symm

theorem branch_merge (left right : List (Key × Subtree V)) (separator : Key) :
    Branch.merge ⟨⟨slots left⟩, separator, ⟨slots right⟩⟩ =
      ⟨slots (left ++ Branch.rekeyEntries separator right)⟩ := by
  rw [Branch.merge, Branch.rekeyed_eq, slots_append, slots_rekey]

theorem node_merge {pair : Siblings (Subtree V)}
    (hkind : pair.left.kind = pair.right.kind) :
    ∃ drained,
      Node.merge (pair.map node) = .ok ((merge pair).node, drained) ∧
        drained.kind = pair.right.kind := by
  obtain ⟨left | left, separator, right | right⟩ := pair
  · exact ⟨_, rfl, rfl⟩
  · simp at hkind
  · simp at hkind
  · refine ⟨.branch .drained, ?_, rfl⟩
    simp only [Siblings.map, node, Node.merge, branch_merge, merge]

theorem node_borrow {donor : Direction} {pair shifted : Siblings (Subtree V)}
    (hkind : pair.left.kind = pair.right.kind)
    (hleft : 0 < pair.left.size) (hright : 0 < pair.right.size)
    (hborrow : borrow donor pair = some shifted) :
    Node.borrow donor (pair.map node) = .ok (shifted.map node) := by
  obtain ⟨drained, hmerge, _⟩ := node_merge hkind
  refine Node.borrow_of_cut donor ?_ ?_ hmerge ?_
  · exact hleft
  · exact hright
  · cases donor with
    | left => exact node_cut hborrow
    | right => exact node_cut hborrow

end Subtree

end LatchTree
