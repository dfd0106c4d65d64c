import LatchTree.Proofs.Tree.Insert

/-!
# Removal from sound trees

The repairs in the page table follow the repairs that climb a context.  A
removal from a sound tree is refused if the key is not there, and otherwise it
leaves a sound tree without the entry of the key.
-/

namespace LatchTree

open Subtree Context

variable {V : Type}

namespace Tree

/-! ## Repairs -/

namespace Stores

variable {tree : Tree V} {cells : List (Cell V)} {before after : List PageId}

theorem retire {id : PageId} {node : Node V} {pages : List PageId}
    (hstores : tree.Stores ((id, node) :: cells) pages)
    (hpages : pages =
      before ++ (match node.kind with | .leaf => [id] | .branch => []) ++
        after) :
    (tree.retire id node.kind).Stores cells (before ++ after) ∧
      tree.pages.Evolves (tree.retire id node.kind).pages := by
  subst hpages
  cases node with
  | leaf contents =>
      rw [List.append_assoc] at hstores
      exact hstores.retire_leaf
  | branch contents =>
      simp only [Node.kind, List.append_nil] at hstores
      exact hstores.retire_branch

theorem setPair {left right parent : PageId}
    {leftNode rightNode leftNew rightNew : Node V}
    {branch : Branch} {pages : List PageId}
    (hstores : tree.Stores
      ((left, leftNode) :: (right, rightNode) :: (parent, .branch branch) ::
        cells) pages)
    (hleft : leftNew.kind = leftNode.kind)
    (hright : rightNew.kind = rightNode.kind) (branchNew : Branch) :
    let next := ((tree.setNode left leftNew).setNode right rightNew).setNode
      parent (.branch branchNew)
    next.Stores
        ((left, leftNew) :: (right, rightNew) :: (parent, .branch branchNew) ::
          cells) pages ∧
      tree.Continues next [] := by
  intro next
  have hzero : tree.Stores ([] ++ (left, leftNode) :: (right, rightNode) ::
      (parent, .branch branch) :: cells) pages := hstores
  obtain ⟨hfirst, hfirstContinues⟩ := hzero.setNode leftNew hleft
  have hone : (tree.setNode left leftNew).Stores
      ([(left, leftNew)] ++ (right, rightNode) ::
        (parent, .branch branch) :: cells) pages := hfirst
  obtain ⟨hsecond, hsecondContinues⟩ := hone.setNode rightNew hright
  have htwo : ((tree.setNode left leftNew).setNode right rightNew).Stores
      ([(left, leftNew), (right, rightNew)] ++
        (parent, .branch branch) :: cells) pages :=
    hsecond
  obtain ⟨hthird, hthirdContinues⟩ := htwo.setNode (.branch branchNew) rfl
  exact ⟨hthird, (hfirstContinues.trans hsecondContinues).trans hthirdContinues⟩

end Stores

section Repair

variable {tree : Tree V} {frame : Frame V} {rest : Context V} {t : Subtree V}
  {pairing : Pairing V}

/-- The cells of two neighbours in front, then that of their branch. -/
theorem Holds.stores_pairing (hholds : tree.Holds (rest.plug (frame.plug t)))
    (hpair : frame.pairUp t = some pairing) :
    tree.Stores
      ((pairing.pair.left.page, pairing.pair.left.node) ::
        (pairing.pair.right.page, pairing.pair.right.node) ::
        (frame.page, .branch (pairing.branch pairing.pair.separator)) ::
        (pairing.pair.left.cellsBelow ++ pairing.pair.right.cellsBelow ++
          cellsOutside pairing.around rest))
      (Cell.leafPagesIn (cellsBefore (pairing.around :: rest)) ++
        (pairing.pair.left.leafPages ++ pairing.pair.right.leafPages) ++
        Cell.leafPagesIn (cellsAfter (pairing.around :: rest))) := by
  have hstores := hholds.stores
  rw [← Frame.fill_pairUp hpair, Pairing.fill, Stores.fill_iff,
    pairing.slots_fill rfl rfl, Frame.page_pairUp hpair,
    leafPagesIn_cellsOf_cons, leafPagesIn_cellsOf_cons, leafPagesIn_cellsOf_nil,
    List.append_nil] at hstores
  apply hstores.perm
  rw [cellsOf_cons, cellsOf_cons, cellsOf_nil, cells_eq, cells_eq,
    List.append_nil]
  simp only [List.cons_append, List.append_assoc]
  apply Multiset.coe_eq_coe.mp
  simp only [← Multiset.cons_coe, ← Multiset.coe_add, ← Multiset.singleton_add]
  abel

theorem pairAt_pairing (hholds : tree.Holds (rest.plug (frame.plug t)))
    (hpair : frame.pairUp t = some pairing) :
    tree.pairAt (pairing.branch pairing.pair.separator) {
        left := pairing.pair.left.page
        right := pairing.pair.right.page
        slot := pairing.around.left.length + 1 } =
      .ok (pairing.pair.map node) := by
  have hstores := hholds.stores_pairing hpair
  have hleft := hstores.holds.node List.mem_cons_self
  have hright := hstores.holds.node (List.mem_cons_of_mem _ List.mem_cons_self)
  have hentry : (pairing.branch pairing.pair.separator).entry
      (pairing.around.left.length + 1) =
        .ok (pairing.pair.separator, pairing.pair.right.page) := by
    rw [← length_slots pairing.around.left]
    exact Branch.entry_split
  simp only [pairAt, hentry, hleft, hright, bind, Except.bind]
  rfl

theorem mergePair_pairing (hholds : tree.Holds (rest.plug (frame.plug t)))
    (hpair : frame.pairUp t = some pairing)
    (hkind : pairing.pair.left.kind = pairing.pair.right.kind)
    (direction : Direction) (children : Nat) :
    ∃ next, tree.mergePair frame.page (pairing.branch pairing.pair.separator) {
        left := pairing.pair.left.page
        right := pairing.pair.right.page
        slot := pairing.around.left.length + 1 } (pairing.pair.map node) =
          .ok (next, [pairing.pair.right.page]) ∧
      next.Holds (rest.plug (pairing.around.plug (merge pairing.pair))) ∧
      next.height = tree.height ∧
      tree.Continues next
        [.rebalanced pairing.pair.left.kind direction .merge children] := by
  have hstores := hholds.stores_pairing hpair
  obtain ⟨drained, hmerge, hdrained⟩ := node_merge hkind
  have herase : (pairing.branch pairing.pair.separator).eraseSlot
      (pairing.around.left.length + 1) =
        ⟨slots pairing.around.left ++
          (pairing.around.key, pairing.pair.left.page) ::
          slots pairing.around.right⟩ := by
    rw [← length_slots pairing.around.left]
    exact Branch.eraseSlot_split
  have hmergedKind : (merge pairing.pair).node.kind =
      pairing.pair.left.node.kind :=
    merge_kind pairing.pair
  obtain ⟨hwritten, hcontinues⟩ := hstores.setPair hmergedKind hdrained
    ⟨slots pairing.around.left ++
      (pairing.around.key, pairing.pair.left.page) ::
      slots pairing.around.right⟩
  have hpages : Cell.leafPagesIn (cellsBefore (pairing.around :: rest)) ++
        (pairing.pair.left.leafPages ++ pairing.pair.right.leafPages) ++
        Cell.leafPagesIn (cellsAfter (pairing.around :: rest)) =
      (Cell.leafPagesIn (cellsBefore (pairing.around :: rest)) ++
        (merge pairing.pair).leafPages) ++
        (match drained.kind with
          | .leaf => [pairing.pair.right.page]
          | .branch => []) ++
        Cell.leafPagesIn (cellsAfter (pairing.around :: rest)) := by
    rw [leafPages_pair hkind, merge_leafPages hkind, hdrained, ← hkind]
    cases pairing.pair.left.kind <;> simp
  obtain ⟨hretired, hevolves⟩ :=
    (hwritten.perm (List.Perm.swap _ _ _)).retire hpages
  rw [hdrained, ← hkind] at hretired hevolves
  let written :=
    ((tree.setNode pairing.pair.left.page (merge pairing.pair).node).setNode
      pairing.pair.right.page drained).setNode frame.page
      (.branch ⟨slots pairing.around.left ++
        (pairing.around.key, pairing.pair.left.page) ::
        slots pairing.around.right⟩)
  let retired := written.retire pairing.pair.right.page pairing.pair.left.kind
  have hstats : (retired.stats.countMerge pairing.pair.left.kind).livePages =
      retired.stats.livePages := by
    cases pairing.pair.left.kind <;> rfl
  refine ⟨{ retired with
      stats := retired.stats.countMerge pairing.pair.left.kind }, ?_,
    ⟨?_, ?_⟩, rfl, ⟨rfl, rfl, hcontinues.pages.trans hevolves⟩⟩
  · rw [mergePair, hmerge]
    simp only [bind, Except.bind, herase]
    rfl
  · refine hholds.root.trans (rest.plug_page_congr ?_)
    exact (Frame.page_pairUp hpair).symm
  · rw [Frame.plug, Stores.fill_iff, Frame.page_pairUp hpair,
      leafPagesIn_cellsOf_cons, leafPagesIn_cellsOf_nil, List.append_nil,
      slots_cons, merge_page]
    refine (hretired.perm ?_).of_pages rfl hstats
    rw [← merge_cellsBelow hkind, cellsOf_cons, cellsOf_nil, List.append_nil,
      cells_eq, merge_page, List.append_assoc (slots pairing.around.left),
      List.cons_append]
    exact List.Perm.swap _ _ _

theorem borrowInPair_pairing (hholds : tree.Holds (rest.plug (frame.plug t)))
    (hpair : frame.pairUp t = some pairing) {n : Nat}
    {shifted : Siblings (Subtree V)}
    (hkind : pairing.pair.left.kind = pairing.pair.right.kind)
    (hborrow : Node.borrow pairing.direction (pairing.pair.map node) =
      .ok (shifted.map node))
    (hparts : (merge pairing.pair).CutInto n pairing.pair.right.page shifted)
    (children : Nat) :
    ∃ next, tree.borrowInPair pairing.direction frame.page
        (pairing.branch pairing.pair.separator) {
          left := pairing.pair.left.page
          right := pairing.pair.right.page
          slot := pairing.around.left.length + 1 } (pairing.pair.map node) =
            .ok next ∧
      next.Holds (rest.plug (pairing.fill shifted)) ∧
      next.height = tree.height ∧
      tree.Continues next
        [.rebalanced pairing.pair.left.kind pairing.direction .borrow
          children] := by
  have hstores := hholds.stores_pairing hpair
  have hset : (pairing.branch pairing.pair.separator).setKey
      (pairing.around.left.length + 1) shifted.separator =
        pairing.branch shifted.separator := by
    rw [← length_slots pairing.around.left]
    exact Branch.setKey_split shifted.separator
  have hleftPage : shifted.left.page = pairing.pair.left.page :=
    hparts.leftPage.trans (merge_page pairing.pair)
  have hleftKind : shifted.left.kind = pairing.pair.left.kind :=
    hparts.leftKind.trans (merge_kind pairing.pair)
  have hrightKind : shifted.right.kind = pairing.pair.right.kind :=
    hparts.rightKind.trans ((merge_kind pairing.pair).trans hkind)
  obtain ⟨hwritten, hcontinues⟩ :=
    hstores.setPair hleftKind hrightKind (pairing.branch shifted.separator)
  let written :=
    ((tree.setNode pairing.pair.left.page shifted.left.node).setNode
      pairing.pair.right.page shifted.right.node).setNode frame.page
      (.branch (pairing.branch shifted.separator))
  refine ⟨{ written with stats := written.stats.countBorrow }, ?_, ⟨?_, ?_⟩,
    rfl, ⟨rfl, rfl, hcontinues.pages⟩⟩
  · rw [borrowInPair, hborrow]
    simp only [bind, Except.bind, Siblings.map, hset]
    rfl
  · refine hholds.root.trans (rest.plug_page_congr ?_)
    exact (Frame.page_pairUp hpair).symm
  · rw [Pairing.fill, Stores.fill_iff,
      pairing.slots_fill hleftPage hparts.rightPage, Frame.page_pairUp hpair,
      leafPagesIn_cellsOf_cons, leafPagesIn_cellsOf_cons,
      leafPagesIn_cellsOf_nil, List.append_nil, hparts.leafPages_merge hkind]
    refine (hwritten.perm ?_).of_pages rfl rfl
    rw [← merge_cellsBelow hkind, ← hparts.cellsBelow, ← hleftPage,
      ← hparts.rightPage, cellsOf_cons, cellsOf_cons, cellsOf_nil,
      List.append_nil, cells_eq, cells_eq]
    simp only [List.cons_append, List.append_assoc]
    apply Multiset.coe_eq_coe.mp
    simp only [← Multiset.cons_coe, ← Multiset.coe_add,
      ← Multiset.singleton_add]
    abel

theorem branch_pairing (hholds : tree.Holds (rest.plug (frame.plug t)))
    (hpair : frame.pairUp t = some pairing) :
    tree.pages.branch frame.page =
      .ok (pairing.branch pairing.pair.separator) :=
  (hholds.stores_pairing hpair).holds.branch
    (List.mem_cons_of_mem _ (List.mem_cons_of_mem _ List.mem_cons_self))

theorem length_branch_pairing (hpair : frame.pairUp t = some pairing)
    (separator : Key) :
    (pairing.branch separator).entries.length = frame.width := by
  rw [Frame.width_pairUp hpair, Frame.width, Pairing.branch]
  simp
  omega

theorem repair_merge (hholds : tree.Holds (rest.plug (frame.plug t)))
    (hpair : frame.pairUp t = some pairing)
    (hkind : pairing.pair.left.kind = pairing.pair.right.kind)
    (hjoins : pairing.Joins tree.config) :
    ∃ next, tree.repair t.page frame.left.length frame.page =
        .ok (next, .merge, .rebalanced pairing.pair.left.kind pairing.direction
          .merge (frame.width - 1), [pairing.pair.right.page]) ∧
      next.Holds (rest.plug (pairing.around.plug (merge pairing.pair))) ∧
      next.height = tree.height ∧
      tree.Continues next
        [.rebalanced pairing.pair.left.kind pairing.direction .merge
          (frame.width - 1)] := by
  obtain ⟨next, hmerge, hnext⟩ :=
    mergePair_pairing hholds hpair hkind pairing.direction (frame.width - 1)
  refine ⟨next, ?_, hnext⟩
  have hfits : (pairing.pair.map node).left.size +
      (pairing.pair.map node).right.size ≤
      tree.config.capacity (pairing.pair.map node).left.kind := hjoins
  rw [repair, branch_pairing hholds hpair]
  simp only [bind, Except.bind, Frame.neighbours_pairUp hpair,
    pairAt_pairing hholds hpair, if_pos hfits, hmerge,
    length_branch_pairing hpair]
  rfl

theorem repair_borrow (hholds : tree.Holds (rest.plug (frame.plug t)))
    (hpair : frame.pairUp t = some pairing) {n : Nat}
    {shifted : Siblings (Subtree V)}
    (hkind : pairing.pair.left.kind = pairing.pair.right.kind)
    (hfull : ¬ pairing.Joins tree.config)
    (hborrow : Node.borrow pairing.direction (pairing.pair.map node) =
      .ok (shifted.map node))
    (hparts : (merge pairing.pair).CutInto n pairing.pair.right.page shifted) :
    ∃ next, tree.repair t.page frame.left.length frame.page =
        .ok (next, .borrow, .rebalanced pairing.pair.left.kind pairing.direction
          .borrow frame.width, []) ∧
      next.Holds (rest.plug (pairing.fill shifted)) ∧
      next.height = tree.height ∧
      tree.Continues next
        [.rebalanced pairing.pair.left.kind pairing.direction .borrow
          frame.width] := by
  obtain ⟨next, hshift, hnext⟩ :=
    borrowInPair_pairing hholds hpair hkind hborrow hparts frame.width
  refine ⟨next, ?_, hnext⟩
  have hlarge : ¬ (pairing.pair.map node).left.size +
      (pairing.pair.map node).right.size ≤
      tree.config.capacity (pairing.pair.map node).left.kind := hfull
  rw [repair, branch_pairing hholds hpair]
  simp only [bind, Except.bind, Frame.neighbours_pairUp hpair,
    pairAt_pairing hholds hpair, if_neg hlarge, hshift,
    length_branch_pairing hpair]
  rfl

/-! ## Single steps of the climb -/

theorem repairUnderfull_of_sized
    (hholds : tree.Holds (rest.plug (frame.plug t)))
    (hsized : t.Sized tree.config false) (slot parentSlot : Nat)
    (parent : PageId) (above : List Link) :
    tree.repairUnderfull t.page slot (.page parent parentSlot :: above) =
      .ok (tree, [], []) := by
  have hnode : tree.pages.node t.page = .ok t.node :=
    Holds.node (show tree.Holds (Context.plug (frame :: rest) t) from hholds)
  have hnot : t.node.isUnderfull tree.config = false := by
    have hnlt : ¬ t.node.size < tree.config.minSize t.node.kind :=
      Nat.not_lt.mpr hsized.1
    simpa [Node.isUnderfull] using hnlt
  rw [repairUnderfull, hnode]
  simp only [bind, Except.bind, hnot]
  rfl

/-- A page is merged with its neighbour, and the climb goes on with their
parent. -/
theorem repairUnderfull_merge
    (hholds : tree.Holds (rest.plug (frame.plug t)))
    (hpair : frame.pairUp t = some pairing)
    (hkind : pairing.pair.left.kind = pairing.pair.right.kind)
    (hunder : t.size < tree.config.minSize t.kind)
    (hjoins : pairing.Joins tree.config) :
    ∃ next,
      (∀ slot above,
        tree.repairUnderfull t.page frame.left.length
          (.page frame.page slot :: above) =
          (next.repairUnderfull frame.page slot above).map fun result =>
            (result.1, .rebalanced pairing.pair.left.kind pairing.direction
              .merge (frame.width - 1) :: result.2.1,
              pairing.pair.right.page :: result.2.2)) ∧
      next.Holds (rest.plug (pairing.around.plug (merge pairing.pair))) ∧
      next.height = tree.height ∧
      tree.Continues next
        [.rebalanced pairing.pair.left.kind pairing.direction .merge
          (frame.width - 1)] := by
  have hnode : tree.pages.node t.page = .ok t.node :=
    Holds.node (show tree.Holds (Context.plug (frame :: rest) t) from hholds)
  have hneedy : t.node.isUnderfull tree.config = true :=
    isUnderfull_of_size hunder
  obtain ⟨next, hstep, hnext⟩ := repair_merge hholds hpair hkind hjoins
  refine ⟨next, fun slot above => ?_, hnext⟩
  rw [repairUnderfull, hnode]
  simp only [bind, Except.bind, hneedy, if_true, hstep]
  cases next.repairUnderfull frame.page slot above <;> rfl

/-- A page borrows from its neighbour, and the climb ends. -/
theorem repairUnderfull_borrow
    (hholds : tree.Holds (rest.plug (frame.plug t)))
    (hpair : frame.pairUp t = some pairing) {n : Nat}
    {shifted : Siblings (Subtree V)}
    (hkind : pairing.pair.left.kind = pairing.pair.right.kind)
    (hunder : t.size < tree.config.minSize t.kind)
    (hfull : ¬ pairing.Joins tree.config)
    (hborrow : Node.borrow pairing.direction (pairing.pair.map node) =
      .ok (shifted.map node))
    (hparts : (merge pairing.pair).CutInto n pairing.pair.right.page shifted) :
    ∃ next,
      (∀ slot above,
        tree.repairUnderfull t.page frame.left.length
          (.page frame.page slot :: above) =
          .ok (next, [.rebalanced pairing.pair.left.kind pairing.direction
            .borrow frame.width], [])) ∧
      next.Holds (rest.plug (pairing.fill shifted)) ∧
      next.height = tree.height ∧
      tree.Continues next
        [.rebalanced pairing.pair.left.kind pairing.direction .borrow
          frame.width] := by
  have hnode : tree.pages.node t.page = .ok t.node :=
    Holds.node (show tree.Holds (Context.plug (frame :: rest) t) from hholds)
  have hneedy : t.node.isUnderfull tree.config = true :=
    isUnderfull_of_size hunder
  obtain ⟨next, hstep, hnext⟩ :=
    repair_borrow hholds hpair hkind hfull hborrow hparts
  refine ⟨next, fun slot above => ?_, hnext⟩
  rw [repairUnderfull, hnode]
  simp only [bind, Except.bind, hneedy, if_true, hstep]
  rfl

end Repair

theorem collapseRoot_of_sized {tree : Tree V} {t : Subtree V}
    (hholds : tree.Holds t) (hsized : t.Sized tree.config true) :
    tree.collapseRoot t.page = .ok (tree, [], []) := by
  have hnode : tree.pages.node t.page = .ok t.node :=
    Holds.node (show tree.Holds (Context.plug [] t) from hholds)
  rw [collapseRoot, hnode]
  cases t with
  | leaf page contents => rfl
  | branch page children =>
      have htwo : 2 ≤ (Subtree.branch page children).size := hsized.1
      rw [size_branch] at htwo
      match children, htwo with
      | _ :: _ :: _, _ => rfl

/-- A root with a single child gives way to it. -/
theorem collapseRoot_refines {tree : Tree V} {t : Subtree V}
    (hholds : tree.Holds t) :
    ∃ next noted, tree.collapseRoot t.page =
        .ok (next, (repairUp tree.config tree.height [] t).events, noted) ∧
      next.Holds (repairUp tree.config tree.height [] t).tree ∧
      next.height = (repairUp tree.config tree.height [] t).height ∧
      tree.Continues next (repairUp tree.config tree.height [] t).events := by
  have hplugged : tree.Holds (Context.plug [] t) := hholds
  have hnode := hplugged.node
  match t with
  | .leaf page contents =>
      refine ⟨tree, [], ?_, hholds, rfl, .refl tree⟩
      rw [collapseRoot, hnode]
      rfl
  | .branch page [] =>
      refine ⟨tree, [], ?_, hholds, rfl, .refl tree⟩
      rw [collapseRoot, hnode]
      rfl
  | .branch page (first :: second :: rest) =>
      refine ⟨tree, [], ?_, hholds, rfl, .refl tree⟩
      rw [collapseRoot, hnode]
      rfl
  | .branch page [(key, child)] =>
      have hstores := hholds.stores
      rw [cells_branch, leafPages_branch, cellsOf_cons, cellsOf_nil,
        List.append_nil] at hstores
      obtain ⟨hretired, hevolves⟩ := hstores.retire_branch
      let collapsed : Tree V := { tree with
        root := child.page
        height := tree.height - 1
        stats := tree.stats.countRootCollapse }
      refine ⟨collapsed.retire page .branch, [page], ?_,
        ⟨rfl, hretired.of_pages rfl rfl⟩, rfl, ⟨rfl, rfl, hevolves⟩⟩
      rw [collapseRoot, hnode]
      rfl

/-! ## The climb -/

/-- A page that lost an entry while it was safe needs no repair. -/
theorem sized_of_isSafe_delete {config : Config} {isRoot : Bool}
    {old t : Subtree V}
    (hsafe : old.node.isSafe config .delete isRoot) (hkind : t.kind = old.kind)
    (hsize : old.size ≤ t.size + 1) (hmost : t.size ≤ config.capacity t.kind) :
    t.Sized config isRoot := by
  refine ⟨?_, hmost⟩
  rw [hkind]
  cases isRoot with
  | false =>
      have hlt : config.minSize old.node.kind < old.node.size := by
        simpa [Node.isSafe] using hsafe
      change config.minSize old.kind < old.size at hlt
      change config.minSize old.kind ≤ t.size
      omega
  | true =>
      cases old with
      | leaf page contents => exact Nat.zero_le _
      | branch page children =>
          have hlt : 2 < (slots children).length := by
            simpa [Node.isSafe, node] using hsafe
          rw [length_slots, ← size_branch page] at hlt
          change 2 ≤ t.size
          omega

/-- The repairs in the page table follow the repairs that climb the context.
Which latches are held does not matter, as long as they suffice. -/
theorem repairUnderfull_refines {config : Config} {height level : Nat}
    {context : Context V} {bounds : Bounds} (hvalid : config.Valid)
    (hcontext : context.Fits config height level bounds) {tree : Tree V}
    {old t : Subtree V} (hconfig : tree.config = config)
    (hheight : tree.height = height)
    (hholds : tree.Holds (context.plug t)) (hfits : t.Fits config level bounds)
    (hshrunk : t.Shrunk config context.isEmpty)
    (hkind : t.kind = old.kind) (hsize : old.size ≤ t.size + 1) :
    ∃ next noted,
      (∀ above, Guards config .delete above context old →
        tree.repairUnderfull t.page context.slot above =
          .ok (next, (context.repairUp config height t).events, noted)) ∧
      next.Holds (context.repairUp config height t).tree ∧
      next.height = (context.repairUp config height t).height ∧
      tree.Continues next (context.repairUp config height t).events := by
  induction hcontext generalizing tree old t with
  | root =>
      by_cases hsized : t.Sized config true
      · rw [repairUp_of_sized height [] hsized]
        refine ⟨tree, [], fun above hguards => ?_, hholds, hheight, .refl tree⟩
        cases hguards with
        | safe => rfl
        | root => exact collapseRoot_of_sized hholds (hconfig ▸ hsized)
      · rw [← hheight, ← hconfig]
        obtain ⟨next, noted, hcollapse, hnext⟩ := collapseRoot_refines hholds
        refine ⟨next, noted, fun above hguards => ?_, hnext⟩
        cases hguards with
        | safe hsafe =>
            rw [hconfig] at hsafe
            exact absurd
              (sized_of_isSafe_delete hsafe hkind hsize hshrunk.2) hsized
        | root => exact hcollapse
  | @inner frame rest level bounds hrest haround hwidth hcapacity ih =>
      have hrisky : t.size < config.minSize t.kind →
          ¬ old.node.isSafe config .delete (frame :: rest).isEmpty := by
        intro hunder hsafe
        have hsized := sized_of_isSafe_delete hsafe hkind hsize hshrunk.2
        exact Nat.not_lt.mpr hsized.1 hunder
      have hrepair :=
        Repair.of_fits hvalid (hvalid.two_le_width hwidth) haround hfits hshrunk
      subst hconfig
      cases hrepair with
      | needless hsized =>
          rw [repairUp_of_sized height (frame :: rest) hsized]
          refine ⟨tree, [], fun above hguards => ?_, hholds, hheight, .refl tree⟩
          cases hguards with
          | safe => rfl
          | page => exact repairUnderfull_of_sized hholds hsized _ _ _ _
      | merge pairing hpair hunder hlacks hjoins =>
          obtain ⟨hbranch, hbranchSize⟩ :=
            branch_shrunk hvalid haround hwidth hcapacity hfits hpair hlacks
              hjoins
          obtain ⟨mid, hstep, hmid, hmidHeight, hcontinues⟩ :=
            repairUnderfull_merge hholds hpair hlacks.kind hunder hjoins
          have hnarrower : (frame.plug old).size ≤
              (pairing.around.plug (merge pairing.pair)).size + 1 := by
            rw [Frame.plug_size, Frame.plug_size, frame.width_pairUp hpair]
          have hbranchKind : (pairing.around.plug (merge pairing.pair)).kind =
              (frame.plug old).kind := rfl
          obtain ⟨next, noted, hclimb, hnext, hnextHeight, hnextContinues⟩ :=
            ih hcontinues.config (hmidHeight.trans hheight) hmid hbranch
              hbranchSize hbranchKind hnarrower
          rw [repairUp_merge hpair hunder hjoins]
          refine ⟨next, pairing.pair.right.page :: noted,
            fun above hguards => ?_, hnext, hnextHeight,
            hcontinues.trans hnextContinues⟩
          cases hguards with
          | safe hsafe => exact absurd hsafe (hrisky hunder)
          | @page above _ _ _ hguards =>
              have hrepaired := hclimb above hguards
              rw [Frame.plug_page, Frame.page_pairUp hpair] at hrepaired
              apply (hstep rest.slot above).trans
              rw [hrepaired]
              rfl
      | borrow pairing shifted n hpair hunder hlacks hfull hborrow hcut hpos
          hsizedLeft hsizedRight =>
          obtain ⟨hleftPos, hrightPos⟩ := hlacks.size_pos hvalid
          have hnodes := node_borrow hlacks.kind hleftPos hrightPos hborrow
          obtain ⟨next, hstep, hnext, hnextHeight, hcontinues⟩ :=
            repairUnderfull_borrow hholds hpair hlacks.kind hunder hfull hnodes
              (cutInto hcut)
          rw [repairUp_borrow hpair hunder hfull hborrow]
          refine ⟨next, [], fun above hguards => ?_, hnext,
            hnextHeight.trans hheight, hcontinues⟩
          cases hguards with
          | safe hsafe => exact absurd hsafe (hrisky hunder)
          | page => exact hstep _ _

/-! ## Removals -/

namespace Sound

variable {tree : Tree V} {t : Subtree V} {key : Key}

theorem removeAlong_absent (hsound : tree.Sound t) {context : Context V}
    {page : PageId} {contents : Leaf V} {bounds : Bounds}
    (hleads : Leads tree.config tree.height t key context page contents bounds)
    (habsent : t.entries.lookup key = none) (above : List Link) :
    tree.removeAlong ⟨.exclusive, .page page context.slot :: above⟩ key =
      .ok { result := .error (.notFound key), tree } := by
  have hleaf := hsound.stores.holds.leaf hleads.mem_cells
  have hget : contents.get? key = none := by
    rw [hleads.get?_eq hsound.wellFormed.fits]
    exact habsent
  simp [removeAlong, removeAlongNoted, LatchPath.target, hleaf, hget, bind,
    Except.bind, pure, Except.pure]

theorem remove_absent (hsound : tree.Sound t)
    (habsent : t.entries.lookup key = none) :
    tree.remove key = .ok { result := .error (.notFound key), tree } := by
  obtain ⟨context, page, contents, bounds, hleads, hdescend⟩ :=
    hsound.exists_descend key
  rw [remove, descend_eq_descendBy, hdescend]
  exact hsound.removeAlong_absent hleads habsent _

/-- An entry is taken out of the leaf that covers its key, and repairs follow.
All latches that suffice lead to the same tree. -/
theorem exists_removeAlong_present (hsound : tree.Sound t) {context : Context V}
    {page : PageId} {contents : Leaf V} {bounds : Bounds}
    (hleads : Leads tree.config tree.height t key context page contents bounds)
    {value : V} (hpresent : t.entries.lookup key = some value) :
    ∃ settled next,
      settled = context.repairUp tree.config tree.height
          (.leaf page (contents.erase key)) ∧
        (∀ above,
          Guards tree.config .delete above context (.leaf page contents) →
          tree.removeAlong ⟨.exclusive, .page page context.slot :: above⟩ key =
            .ok { result := .ok value, tree := next,
                  events := settled.events }) ∧
        next.Sound settled.tree ∧ tree.Continues next settled.events ∧
        ∀ e, e ∈ settled.tree.entries ↔ e ∈ t.entries ∧ e.1 ≠ key := by
  have hleaf := hsound.stores.holds.leaf hleads.mem_cells
  have hget : contents.get? key = some value := by
    rw [hleads.get?_eq hsound.wellFormed.fits]
    exact hpresent
  have hfits := hleads.erase_fits
  have hshrunk := hleads.erase_shrunk hget
  have hsize : (Subtree.leaf page (contents.erase key)).size =
      (Subtree.leaf page contents).size - 1 :=
    Leaf.length_erase (hleads.fits.get?_eq_some_iff.mp hget)
  have hkind : (Subtree.leaf page (contents.erase key)).kind =
      (Subtree.leaf page contents).kind := rfl
  obtain ⟨hset, hsetContinues⟩ :=
    Holds.setLeaf (hleads.plug ▸ hsound.toHolds) (contents.erase key)
  obtain ⟨next, noted, hrepair, hnext, hheight, hcontinues⟩ :=
    repairUnderfull_refines hsound.valid hleads.outer hsetContinues.config rfl
      hset hfits hshrunk hkind (by rw [hsize]; omega)
  obtain ⟨hwellFormed, hentries⟩ :=
    repairUp_correct hsound.valid hleads.outer hfits hshrunk
  refine ⟨_, next, rfl, ?_, ⟨hnext, ?_, ?_⟩, hsetContinues.trans hcontinues, ?_⟩
  · intro above hguards
    have hclimb := hrepair above hguards
    rw [show (Subtree.leaf page (contents.erase key)).page = page from rfl]
      at hclimb
    simp [removeAlong, removeAlongNoted, LatchPath.target, hleaf, hget, bind,
      Except.bind, pure, Except.pure, hclimb]
  · rw [hcontinues.config]
    exact hsound.valid
  · rw [hcontinues.config, hheight]
    exact hwellFormed
  · intro e
    have hnot : e ∈ (context.plug (.leaf page (contents.erase key))).entries →
        e.1 ≠ key := by
      intro he hkey
      have hadmits : bounds.Admits e.1 := hkey ▸ hleads.admits
      rw [hleads.outer.mem_entries_plug hadmits, entries_leaf,
        hleads.fits.mem_erase] at he
      exact he.2 hkey
    rw [hentries, hleads.plug]
    have hmemErase := hleads.fits.mem_erase key e
    rw [entries_plug, entries_leaf] at hnot ⊢
    rw [entries_plug, entries_leaf]
    simp only [List.mem_append] at hnot ⊢
    tauto

theorem exists_remove_present (hsound : tree.Sound t) {value : V}
    (hpresent : t.entries.lookup key = some value) :
    ∃ context page contents bounds settled next,
      Leads tree.config tree.height t key context page contents bounds ∧
        settled = context.repairUp tree.config tree.height
          (.leaf page (contents.erase key)) ∧
        tree.remove key =
          .ok { result := .ok value, tree := next, events := settled.events } ∧
        next.Sound settled.tree ∧ tree.Continues next settled.events ∧
        ∀ e, e ∈ settled.tree.entries ↔ e ∈ t.entries ∧ e.1 ≠ key := by
  obtain ⟨context, page, contents, bounds, hleads, hdescend⟩ :=
    hsound.exists_descend key
  obtain ⟨settled, next, hsettled, hremove, hnext⟩ :=
    hsound.exists_removeAlong_present hleads hpresent
  have hguards := guards_held (ReleaseRule.cautious_safe tree.config .delete)
    context (.leaf page contents)
  refine ⟨context, page, contents, bounds, settled, next, hleads, hsettled, ?_,
    hnext⟩
  rw [remove, descend_eq_descendBy, hdescend]
  exact hremove _ hguards

end Sound

end Tree

end LatchTree
