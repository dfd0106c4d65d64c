import LatchTree.Proofs.Tree.Descent

/-!
# Insertion in sound trees

The splits in the page table follow the splits that climb a context, step by
step.  An insertion into a sound tree is therefore refused if the key is there,
and otherwise it leaves a sound tree with one entry more.
-/

namespace LatchTree

open Subtree

variable {V : Type}

namespace Tree

/-! ## Splits -/

namespace Stores

variable {tree : Tree V} {t : Subtree V} {others : List (Cell V)}
  {before after : List PageId} {n : Nat} {pair : Siblings (Subtree V)}

theorem alloc {cells : List (Cell V)} {leafPages : List PageId} {stats : Stats}
    (hstores : tree.Stores cells leafPages) (node : Node V)
    (hstats : stats.livePages = tree.stats.livePages + 1) :
    Tree.Stores { tree with pages := tree.pages.alloc node, stats }
      ((tree.pages.size, node) :: cells) leafPages where
  holds := hstores.holds.alloc node
  chains := hstores.chains.of_links (PageTable.prev?_alloc tree.pages node)
    (PageTable.next?_alloc tree.pages node)
  leaves := fun id hid => by
    obtain ⟨contents, hmem⟩ := hstores.leaves id hid
    exact ⟨contents, List.mem_cons_of_mem _ hmem⟩
  livePages := by rw [hstats, hstores.livePages, List.length_cons]

theorem linkAfter {cells : List (Cell V)} {id new : PageId}
    (hstores : tree.Stores cells (before ++ id :: after))
    (hnew : ∃ contents, (new, .leaf contents) ∈ cells)
    (hfresh : new ∉ before ++ id :: after) :
    Tree.Stores { tree with pages := tree.pages.linkAfter id new } cells
        (before ++ id :: new :: after) ∧
      tree.pages.Evolves (tree.pages.linkAfter id new) := by
  obtain ⟨contents, hmem⟩ := hnew
  have hmid : id ∈ before ++ id :: after :=
    List.mem_append_right _ List.mem_cons_self
  refine ⟨⟨?_, ?_, ?_, hstores.livePages⟩, ?_⟩
  · exact hstores.holds.of_liveNode?
      (PageTable.liveNode?_linkAfter tree.pages id new)
  · exact hstores.chains.linkAfter (fun other hother => hstores.leaf_lt hother)
      (hstores.holds.lt_size hmem) hfresh
  · intro other hother
    by_cases hsame : other = new
    · exact ⟨contents, hsame ▸ hmem⟩
    · apply hstores.leaves other
      simp only [List.mem_append, List.mem_cons] at hother ⊢
      rcases hother with hother | hother | hother | hother
      · exact .inl hother
      · exact .inr (.inl hother)
      · exact absurd hother hsame
      · exact .inr (.inr hother)
  · refine .linkAfter (hstores.live_leaf hmid) ?_ ?_
    · rw [(hstores.holds.live_iff new _).mpr hmem]
      rfl
    · intro next hnext
      rw [hstores.chains.next?_eq] at hnext
      exact hstores.live_leaf (List.mem_append_right _
        (List.mem_cons_of_mem _ (List.mem_of_mem_head? hnext)))

/-- A split has allocated a page for the upper half, and the lower half is not
written yet. -/
theorem allocHalf
    (hstores : tree.Stores (t.cells ++ others) (before ++ t.leafPages ++ after))
    (hparts : t.CutInto n tree.pages.size pair) :
    let mid : Tree V := { tree with
      pages := match t.node.kind with
        | .leaf =>
            (tree.pages.alloc pair.right.node).linkAfter t.page tree.pages.size
        | .branch => tree.pages.alloc pair.right.node
      stats := tree.stats.countAllocated.countSplit t.node.kind }
    mid.Stores ([(tree.pages.size, pair.right.node)] ++ (t.page, t.node) ::
        (t.cellsBelow ++ others))
      (before ++ (pair.left.leafPages ++ pair.right.leafPages) ++ after) ∧
    tree.pages.Evolves mid.pages := by
  have hstats : (tree.stats.countAllocated.countSplit t.node.kind).livePages =
      tree.stats.livePages + 1 := by
    cases t.node.kind <;> rfl
  have hallocated := hstores.alloc pair.right.node hstats
  rw [cells_eq, List.cons_append] at hallocated
  have hevolves := PageTable.Evolves.alloc tree.pages pair.right.node
  rw [hparts.leafPages]
  cases t with
  | branch page children => exact ⟨hallocated, hevolves⟩
  | leaf page contents =>
      obtain ⟨upper, hupper⟩ : ∃ upper, pair.right.node = .leaf upper := by
        cases hright : pair.right with
        | leaf page upper => exact ⟨upper, rfl⟩
        | branch page children =>
            have hkind := hparts.rightKind
            rw [hright] at hkind
            cases hkind
      rw [leafPages_leaf, List.append_assoc] at hallocated hstores
      obtain ⟨hlinked, hevolvesLinked⟩ := hallocated.linkAfter
        ⟨upper, by rw [hupper]; exact List.mem_cons_self⟩
        (fun hmem => Nat.lt_irrefl _ (hstores.leaf_lt hmem))
      rw [List.append_assoc]
      exact ⟨hlinked, hevolves.trans hevolvesLinked⟩

/-- The split of a page stores both halves in the place of the page. -/
theorem splitPage
    (hstores : tree.Stores (t.cells ++ others) (before ++ t.leafPages ++ after))
    (hhalve : t.halve tree.pages.size = some pair) :
    ∃ next, tree.splitPage t.page =
        .ok (next, (pair.separator, pair.right.page),
          .pageSplit t.kind pair.left.size pair.separator) ∧
      next.Stores (pair.left.cells ++ pair.right.cells ++ others)
        (before ++ (pair.left.leafPages ++ pair.right.leafPages) ++ after) ∧
      tree.Continues next [.pageSplit t.kind pair.left.size pair.separator] ∧
      next.root = tree.root ∧ next.height = tree.height ∧
      next.pages.size = tree.pages.size + 1 := by
  have hparts := cutInto hhalve
  have hnode : tree.pages.node t.page = .ok t.node := by
    apply hstores.holds.node
    rw [cells_eq]
    exact List.mem_append_left _ List.mem_cons_self
  obtain ⟨hmid, hevolves⟩ := hstores.allocHalf hparts
  obtain ⟨hset, hcontinues⟩ := hmid.setNode pair.left.node hparts.leftKind
  refine ⟨_, ?_, hset.perm ?_,
    ⟨hcontinues.config, ?_, hevolves.trans hcontinues.pages⟩, rfl, rfl, ?_⟩
  · rw [Tree.splitPage, hnode]
    simp only [bind, Except.bind, node_split hhalve]
    rw [hparts.rightPage]
    rfl
  · refine .trans ?_ (hparts.cells_perm.symm.append_right others)
    exact List.Perm.swap _ _ _
  · exact hcontinues.stats
  · cases t <;> simp [Tree.setNode, PageTable.setNode, node, Node.kind]

theorem growRoot {cells : List (Cell V)} {leafPages : List PageId}
    (hstores : tree.Stores cells leafPages) (entry : Key × PageId) :
    (tree.growRoot entry).1.Stores
        ((tree.pages.size, .branch ⟨[(0, tree.root), entry]⟩) :: cells)
        leafPages ∧
      tree.Continues (tree.growRoot entry).1
        [.rootSplit (tree.height + 1) entry.1] := by
  have hstats : tree.stats.countAllocated.countRootSplit.livePages =
      tree.stats.livePages + 1 := rfl
  have hallocated := hstores.alloc (.branch ⟨[(0, tree.root), entry]⟩) hstats
  exact ⟨hallocated.of_pages rfl rfl, rfl, rfl, .alloc tree.pages _⟩

end Stores

open Context

/-- A page whose parent is not latched any more is not overfull after one entry
was added. -/
theorem size_le_of_isSafe_insert {config : Config} {isRoot : Bool}
    {old t : Subtree V}
    (hsafe : old.node.isSafe config .insert isRoot) (hkind : t.kind = old.kind)
    (hgrown : t.size ≤ old.size + 1) : t.size ≤ config.capacity t.kind := by
  have hlt : old.node.size < config.capacity old.node.kind := by
    simpa [Node.isSafe] using hsafe
  change old.size < config.capacity old.kind at hlt
  rw [hkind]
  omega

theorem splitOverfull_of_size_le {tree : Tree V} {context : Context V}
    {t : Subtree V} (hholds : tree.Holds (context.plug t))
    (hsize : t.size ≤ tree.config.capacity t.kind) (slot : Nat)
    (above : List Link) :
    tree.splitOverfull t.page slot above = .ok (tree, []) := by
  have hnot : t.node.isOverfull tree.config = false := by
    have hlt : t.node.size < tree.config.slots t.node.kind :=
      Nat.lt_succ_of_le hsize
    simpa [Node.isOverfull] using hlt
  cases above <;>
    simp [splitOverfull, hholds.node, hnot, bind, Except.bind, pure,
      Except.pure]

section Step

variable {tree : Tree V} {t : Subtree V} {pair : Siblings (Subtree V)}

theorem splitOverfull_root (hholds : tree.Holds t)
    (hfull : t.node.isOverfull tree.config = true)
    (hhalve : t.halve tree.pages.size = some pair) :
    ∃ next, tree.splitOverfull t.page 0 [.root] =
        .ok (next, [.pageSplit t.kind pair.left.size pair.separator,
          .rootSplit (tree.height + 1) pair.separator]) ∧
      next.Holds (.branch (tree.pages.size + 1)
        [(0, pair.left), (pair.separator, pair.right)]) ∧
      next.height = tree.height + 1 ∧
      tree.Continues next [.pageSplit t.kind pair.left.size pair.separator,
        .rootSplit (tree.height + 1) pair.separator] := by
  have hplugged : tree.Holds (Context.plug [] t) := hholds
  have hnode := hplugged.node
  have hstores : tree.Stores (t.cells ++ []) ([] ++ t.leafPages ++ []) := by
    rw [List.append_nil, List.append_nil, List.nil_append]
    exact hholds.stores
  obtain ⟨mid, hsplit, hmid, hcontinues, hroot, hheight, hsize⟩ :=
    hstores.splitPage hhalve
  obtain ⟨hgrown, hgrownContinues⟩ :=
    hmid.growRoot (pair.separator, pair.right.page)
  have hparts := cutInto hhalve
  refine ⟨(mid.growRoot (pair.separator, pair.right.page)).1, ?_, ⟨?_, ?_⟩, ?_,
    ?_⟩
  · rw [splitOverfull, hnode]
    simp only [bind, Except.bind, hfull, if_true, hsplit, growRoot, hheight]
    rfl
  · exact hsize
  · rw [hroot, hholds.root, ← hparts.leftPage, hsize] at hgrown
    rw [cells_branch, leafPages_branch, cellsOf_cons, cellsOf_cons, cellsOf_nil]
    simpa [slots, leafPages] using hgrown
  · exact congrArg (· + 1) hheight
  · rw [hheight] at hgrownContinues
    exact hcontinues.trans hgrownContinues

theorem splitOverfull_page {frame : Frame V} {rest : Context V}
    (hholds : tree.Holds (rest.plug (frame.plug t)))
    (hfull : t.node.isOverfull tree.config = true)
    (hhalve : t.halve tree.pages.size = some pair)
    (hbelow : ∀ e ∈ frame.right.head?, pair.separator < e.1) :
    ∃ next,
      (∀ slot above,
        tree.splitOverfull t.page frame.left.length
          (.page frame.page slot :: above) =
          (next.splitOverfull frame.page slot above).map fun result =>
            (result.1, .pageSplit t.kind pair.left.size pair.separator ::
              result.2)) ∧
      next.Holds (rest.plug
        (frame.fill [(frame.key, pair.left), (pair.separator, pair.right)])) ∧
      next.height = tree.height ∧ next.pages.size = tree.pages.size + 1 ∧
      tree.Continues next
        [.pageSplit t.kind pair.left.size pair.separator] := by
  have hnode : tree.pages.node t.page = .ok t.node :=
    Holds.node (show tree.Holds (Context.plug (frame :: rest) t) from hholds)
  have hparts := cutInto hhalve
  have hstores := Stores.fill_iff.mp hholds.stores
  rw [leafPagesIn_cellsOf_cons, leafPagesIn_cellsOf_nil, List.append_nil]
    at hstores
  simp only [slots_cons, cellsOf_cons, cellsOf_nil, List.append_nil] at hstores
  obtain ⟨mid, hsplit, hmid, hcontinues, hroot, hheight, hsize⟩ :=
    (hstores.perm List.perm_middle.symm).splitPage hhalve
  have hparent := hmid.holds.branch
    (List.mem_append_right (pair.left.cells ++ pair.right.cells)
      List.mem_cons_self)
  rw [List.append_assoc, List.cons_append,
    show slots ([] : List (Key × Subtree V)) = [] from rfl, List.nil_append]
    at hparent
  let grown : Node V := .branch ⟨slots frame.left ++
    slots [(frame.key, pair.left), (pair.separator, pair.right)] ++
    slots frame.right⟩
  obtain ⟨hset, hsetContinues⟩ := hmid.setNode grown rfl
  refine ⟨mid.setNode frame.page grown, ?_, ⟨?_, Stores.fill_iff.mpr ?_⟩,
    hheight, ?_, hcontinues.trans hsetContinues⟩
  · intro slot above
    have hinsert : (Branch.mk (slots frame.left ++ (frame.key, t.page) ::
        slots frame.right)).insertAfter frame.left.length
          (pair.separator, pair.right.page) = .ok ⟨slots frame.left ++
            (frame.key, t.page) :: (pair.separator, pair.right.page) ::
            slots frame.right⟩ := by
      rw [← length_slots frame.left]
      apply Branch.insertAfter_split
      intro e he
      rw [slots, List.head?_map, Option.mem_def, Option.map_eq_some_iff] at he
      obtain ⟨next, hnext, rfl⟩ := he
      exact hbelow next hnext
    have hgrown : grown = .branch ⟨slots frame.left ++ (frame.key, t.page) ::
        (pair.separator, pair.right.page) :: slots frame.right⟩ := by
      simp [grown, slots, hparts.leftPage]
    rw [splitOverfull, hnode]
    simp only [bind, Except.bind, hfull, if_true, hsplit, hparent, hinsert,
      ← hgrown]
    cases (mid.setNode frame.page grown).splitOverfull frame.page slot above <;>
      rfl
  · rw [show (mid.setNode frame.page grown).root = tree.root from hroot,
      hholds.root]
    exact rest.plug_page_congr rfl
  · rw [leafPagesIn_cellsOf_cons, leafPagesIn_cellsOf_cons,
      leafPagesIn_cellsOf_nil, List.append_nil]
    apply hset.perm
    simp only [cellsOf_cons, cellsOf_nil, List.append_nil]
    exact List.perm_middle
  · rw [← hsize]
    exact PageTable.size_modify mid.pages frame.page _

end Step

/-- The splits in the page table follow the splits that climb the context.  Which
latches are held does not matter, as long as they suffice. -/
theorem splitOverfull_refines {config : Config} {height level : Nat}
    {context : Context V} {bounds : Bounds} (hvalid : config.Valid)
    (hcontext : context.Fits config height level bounds) {tree : Tree V}
    {old t : Subtree V} (hconfig : tree.config = config)
    (hheight : tree.height = height)
    (hholds : tree.Holds (context.plug t)) (hfits : t.Fits config level bounds)
    (hswollen : t.Swollen config context.isEmpty)
    (hkind : t.kind = old.kind) (hgrown : t.size ≤ old.size + 1) :
    ∃ next,
      (∀ above, Guards config .insert above context old →
        tree.splitOverfull t.page context.slot above =
          .ok (next,
            (context.splitUp config height tree.pages.size t).events)) ∧
      next.Holds (context.splitUp config height tree.pages.size t).tree ∧
      next.height = (context.splitUp config height tree.pages.size t).height ∧
      tree.Continues next
        (context.splitUp config height tree.pages.size t).events := by
  induction hcontext generalizing tree old t with
  | root =>
      rcases Nat.lt_or_eq_of_le hswollen.2 with hlt | hsize
      · have hle : t.size ≤ config.capacity t.kind := Nat.le_of_lt_succ hlt
        rw [splitUp_of_size_le height [] tree.pages.size hle]
        exact ⟨tree,
          fun above _ => splitOverfull_of_size_le hholds (hconfig ▸ hle) 0 above,
          hholds, hheight, .refl tree⟩
      · obtain ⟨pair, hoverflow, hhalve⟩ :=
          exists_overflow hvalid hsize tree.pages.size
        rw [splitUp, hoverflow, ← hheight]
        obtain ⟨next, hsplit, hnext⟩ :=
          splitOverfull_root hholds (hconfig ▸ isOverfull_of_size hsize) hhalve
        refine ⟨next, fun above hguards => ?_, hnext⟩
        cases hguards with
        | safe hsafe =>
            have hle := size_le_of_isSafe_insert hsafe hkind hgrown
            exact absurd hsize (Nat.ne_of_lt (Nat.lt_succ_of_le hle))
        | root => exact hsplit
  | @inner frame rest level bounds hrest haround hwidth hcapacity ih =>
      rcases Nat.lt_or_eq_of_le hswollen.2 with hlt | hsize
      · have hle : t.size ≤ config.capacity t.kind := Nat.le_of_lt_succ hlt
        rw [splitUp_of_size_le height (frame :: rest) tree.pages.size hle]
        exact ⟨tree,
          fun above _ => splitOverfull_of_size_le hholds (hconfig ▸ hle) _ above,
          hholds, hheight, .refl tree⟩
      · obtain ⟨pair, hoverflow, hhalve⟩ :=
          exists_overflow hvalid hsize tree.pages.size
        rw [splitUp, hoverflow]
        have hbelow : ∀ e ∈ frame.right.head?, pair.separator < e.1 := by
          intro e he
          have hproper := (halve_fits hvalid hsize hfits hhalve).2.proper
          apply hproper pair.separator rfl e.1
          simp [Frame.gap, firstKey, Option.mem_def.mp he]
        obtain ⟨hbranch, hbranchSize⟩ :=
          branch_swollen hvalid haround hwidth hcapacity hfits hsize hhalve
        have hwider : (frame.fill [(frame.key, pair.left),
            (pair.separator, pair.right)]).size ≤
            (frame.plug old).size + 1 := by
          rw [Frame.fill_size, Frame.plug_size, Frame.width]
          simp only [List.length_cons, List.length_nil]
          omega
        have hbranchKind : (frame.fill [(frame.key, pair.left),
            (pair.separator, pair.right)]).kind = (frame.plug old).kind := rfl
        obtain ⟨mid, hstep, hmid, hmidHeight, hmidSize, hcontinues⟩ :=
          splitOverfull_page hholds (hconfig ▸ isOverfull_of_size hsize)
            hhalve hbelow
        obtain ⟨next, hsplit, hnext, hnextHeight, hnextContinues⟩ :=
          ih (hcontinues.config.trans hconfig) (hmidHeight.trans hheight) hmid
            hbranch hbranchSize hbranchKind hwider
        rw [hmidSize] at hsplit hnext hnextHeight hnextContinues
        refine ⟨next, fun above hguards => ?_, hnext, hnextHeight,
          hcontinues.trans hnextContinues⟩
        cases hguards with
        | safe hsafe =>
            have hle := size_le_of_isSafe_insert hsafe hkind hgrown
            exact absurd hsize (Nat.ne_of_lt (Nat.lt_succ_of_le hle))
        | @page above _ _ _ hguards =>
            have hclimb := hsplit above hguards
            rw [Frame.fill_page] at hclimb
            apply (hstep rest.slot above).trans
            rw [hclimb]
            rfl

/-! ## Insertions -/

namespace Sound

variable {tree : Tree V} {t : Subtree V} {key : Key}

theorem insertAlong_present (hsound : tree.Sound t) {context : Context V}
    {page : PageId} {contents : Leaf V} {bounds : Bounds}
    (hleads : Leads tree.config tree.height t key context page contents bounds)
    (hpresent : (t.entries.lookup key).isSome) (value : V)
    (above : List Link) :
    tree.insertAlong ⟨.exclusive, .page page context.slot :: above⟩ key value =
      .ok { result := .error (.alreadyExists key), tree } := by
  have hleaf := hsound.stores.holds.leaf hleads.mem_cells
  have hget : (contents.get? key).isSome = true := by
    rw [hleads.get?_eq hsound.wellFormed.fits]
    exact hpresent
  simp [insertAlong, LatchPath.target, hleaf, hget, bind, Except.bind, pure,
    Except.pure]

theorem insert_present (hsound : tree.Sound t)
    (hpresent : (t.entries.lookup key).isSome) (value : V) :
    tree.insert key value =
      .ok { result := .error (.alreadyExists key), tree } := by
  obtain ⟨context, page, contents, bounds, hleads, hdescend⟩ :=
    hsound.exists_descend key
  rw [insert, descend_eq_descendBy, hdescend]
  exact hsound.insertAlong_present hleads hpresent value _

/-- An entry that is not there is put into the leaf that covers its key, and
splits follow.  All latches that suffice lead to the same tree. -/
theorem exists_insertAlong_absent (hsound : tree.Sound t) {context : Context V}
    {page : PageId} {contents : Leaf V} {bounds : Bounds}
    (hleads : Leads tree.config tree.height t key context page contents bounds)
    (habsent : t.entries.lookup key = none) (value : V) :
    ∃ settled next,
      settled = context.splitUp tree.config tree.height tree.pages.size
          (.leaf page (contents.insert key value)) ∧
        (∀ above,
          Guards tree.config .insert above context (.leaf page contents) →
          tree.insertAlong ⟨.exclusive, .page page context.slot :: above⟩ key
              value =
            .ok { result := .ok (), tree := next, events := settled.events }) ∧
        next.Sound settled.tree ∧ tree.Continues next settled.events ∧
        ∀ e, e ∈ settled.tree.entries ↔ e = (key, value) ∨ e ∈ t.entries := by
  have hleaf := hsound.stores.holds.leaf hleads.mem_cells
  have hget : contents.get? key = none := by
    rw [hleads.get?_eq hsound.wellFormed.fits]
    exact habsent
  have hfits := hleads.insert_fits hget value
  have hswollen := hleads.insert_swollen value
  have hsize : (Subtree.leaf page (contents.insert key value)).size =
      (Subtree.leaf page contents).size + 1 :=
    Leaf.length_insert contents key value
  have hkind : (Subtree.leaf page (contents.insert key value)).kind =
      (Subtree.leaf page contents).kind := rfl
  obtain ⟨hset, hsetContinues⟩ :=
    Holds.setLeaf (hleads.plug ▸ hsound.toHolds) (contents.insert key value)
  obtain ⟨next, hsplit, hnext, hheight, hcontinues⟩ :=
    splitOverfull_refines hsound.valid hleads.outer hsetContinues.config rfl
      hset hfits hswollen hkind (Nat.le_of_eq hsize)
  have hpages :
      (tree.setNode page (.leaf (contents.insert key value))).pages.size =
        tree.pages.size :=
    PageTable.size_modify tree.pages page _
  rw [hpages] at hsplit hnext hheight hcontinues
  refine ⟨_, next, rfl, ?_, ⟨hnext, ?_, ?_⟩, hsetContinues.trans hcontinues, ?_⟩
  · intro above hguards
    have hclimb := hsplit above hguards
    rw [show (Subtree.leaf page (contents.insert key value)).page = page
      from rfl] at hclimb
    simp [insertAlong, LatchPath.target, hleaf, hget, bind, Except.bind, pure,
      Except.pure, hclimb]
  · rw [hcontinues.config]
    exact hsound.valid
  · rw [hcontinues.config, hheight]
    exact splitUp_wellFormed hsound.valid hleads.outer hfits hswollen _
  · intro e
    rw [splitUp_entries, hleads.plug, entries_plug, entries_plug, entries_leaf,
      entries_leaf]
    simp only [List.mem_append, contents.mem_insert key value]
    tauto

theorem exists_insert_absent (hsound : tree.Sound t)
    (habsent : t.entries.lookup key = none) (value : V) :
    ∃ context page contents bounds settled next,
      Leads tree.config tree.height t key context page contents bounds ∧
        settled = context.splitUp tree.config tree.height tree.pages.size
          (.leaf page (contents.insert key value)) ∧
        tree.insert key value =
          .ok { result := .ok (), tree := next, events := settled.events } ∧
        next.Sound settled.tree ∧ tree.Continues next settled.events ∧
        ∀ e, e ∈ settled.tree.entries ↔ e = (key, value) ∨ e ∈ t.entries := by
  obtain ⟨context, page, contents, bounds, hleads, hdescend⟩ :=
    hsound.exists_descend key
  obtain ⟨settled, next, hsettled, hinsert, hnext⟩ :=
    hsound.exists_insertAlong_absent hleads habsent value
  have hguards := guards_held (ReleaseRule.cautious_safe tree.config .insert)
    context (.leaf page contents)
  refine ⟨context, page, contents, bounds, settled, next, hleads, hsettled, ?_,
    hnext⟩
  rw [insert, descend_eq_descendBy, hdescend]
  exact hinsert _ hguards

end Sound

end Tree

end LatchTree
