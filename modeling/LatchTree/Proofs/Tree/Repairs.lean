import LatchTree.Proofs.Subtree.Repairs
import LatchTree.Proofs.Tree.Counters
import LatchTree.Proofs.Tree.Found
import LatchTree.Proofs.Tree.Transition

/-!
# Cascades of repairs in a tree

Which repairs a removal makes can be told before it is made.  All that matters
are the sizes of the pages on the way from the leaf up to the root, those of
their siblings and the slots in which they stand.  The events of the repairs
settle the counters and the height as well.
-/

namespace LatchTree

open Subtree Context

variable {V : Type}

/-- The slot of the child that is there to repair the one in the given slot: the
next one, or for the last child the one before. -/
def Branch.slotBeside (contents : Branch) (slot : Nat) : Nat :=
  if slot + 1 = contents.entries.length then slot - 1 else slot + 1

namespace Tree

/-- The pages of the links up to the root, each seen from its parent. -/
def rungsAlong (tree : Tree V) : List Link → Except Fault (List (Rung V))
  | .page id slot :: .page above upperSlot :: rest => do
    let node ← tree.pages.node id
    let parent ← tree.pages.branch above
    let sibling ← tree.pages.node (← parent.child (parent.slotBeside slot))
    let others ← tree.rungsAlong (.page above upperSlot :: rest)
    return ⟨(id, node), slot, parent, sibling⟩ :: others
  | _ => return []

/-- The rungs from the leaf that covers a key up to the root. -/
def rungsUp (tree : Tree V) (key : Key) : Except Fault (List (Rung V)) := do
  tree.rungsAlong (← tree.descendBy .never key .read).links

/-- What events of repairs tell about the tree before and after them. -/
structure Repaired (tree next : Tree V) (events : List Event) : Prop where
  counters : ∀ counted : Counted, counted.counter next.stats =
    counted.counter tree.stats + events.countP (·.isCounted counted)
  livePages :
    next.stats.livePages + events.countP (·.isCounted (.merge .leaf)) +
        events.countP (·.isCounted (.merge .branch)) +
        events.countP (·.isCounted .rootCollapse) =
      tree.stats.livePages
  height :
    next.height + events.countP (·.isCounted .rootCollapse) = tree.height

end Tree

/-! ## Rungs -/

namespace Frame

variable {frame : Frame V} {t : Subtree V} {pairing : Pairing V}

theorem child_beside (hpair : frame.pairUp t = some pairing) :
    (Branch.mk (slots (frame.left ++ [(frame.key, t)] ++ frame.right))).child
        (Branch.slotBeside ⟨slots (frame.left ++ [(frame.key, t)] ++
          frame.right)⟩ frame.left.length) =
      .ok pairing.helper.page := by
  rcases pairUp_cases hpair with ⟨separator, next, right, hright, rfl⟩ |
    ⟨init, key, prev, hleft, hright, rfl⟩
  · simp [Branch.slotBeside, Branch.child, Branch.entry, slots, hright,
      Pairing.helper, Except.map]
  · simp [Branch.slotBeside, Branch.child, Branch.entry, slots, hleft, hright,
      Pairing.helper, Except.map]

theorem helper_mem_cells (hpair : frame.pairUp t = some pairing)
    (rest : Context V) :
    (pairing.helper.page, pairing.helper.node) ∈
      (rest.plug (frame.plug t)).cells := by
  have hpairCells : (pairing.helper.page, pairing.helper.node) ∈
      cellsOf [(pairing.around.key, pairing.pair.left),
        (pairing.pair.separator, pairing.pair.right)] := by
    rw [cellsOf_cons, cellsOf_cons, cellsOf_nil, List.append_nil,
      List.mem_append, cells_eq, cells_eq, Pairing.helper]
    cases pairing.direction with
    | left => exact .inl List.mem_cons_self
    | right => exact .inr List.mem_cons_self
  rw [← fill_pairUp hpair, Pairing.fill, (cells_fill_perm _ _ _).mem_iff]
  exact List.mem_cons_of_mem _ (List.mem_append_left _ hpairCells)

end Frame

namespace Tree

variable {tree next : Tree V} {t u : Subtree V} {context : Context V}

theorem Shows.rungsAlong_eq {config : Config} {height level : Nat}
    {bounds : Bounds} (hvalid : config.Valid)
    (hcontext : context.Fits config height level bounds)
    (hshows : tree.Shows (context.plug t)) :
    tree.rungsAlong (context.linksUp t ++ [.root]) = .ok (context.rungs t) := by
  induction hcontext generalizing t with
  | root => rfl
  | @inner frame rest level bounds hrest haround hwidth hcapacity ih =>
      obtain ⟨pairing, hpair⟩ :=
        frame.exists_pairUp (hvalid.two_le_width hwidth) t
      have hnode : tree.pages.node t.page = .ok t.node := hshows.node_plug
      have hparent : tree.pages.branch frame.page =
          .ok ⟨slots (frame.left ++ [(frame.key, t)] ++ frame.right)⟩ :=
        Shows.branch_plug hshows
      have hsibling := hshows.carries.node
        (Frame.helper_mem_cells hpair rest)
      have habove := ih hshows
      rw [linksUp_append_root, Frame.plug_page] at habove
      rw [linksUp, List.cons_append, linksUp_append_root, Frame.plug_page,
        rungsAlong, hnode, hparent]
      simp only [bind, Except.bind, Frame.child_beside hpair, hsibling, habove]
      rw [rungs, Frame.rung?, Frame.beside?_pairUp hpair]
      rfl

theorem fromLeaf_rungs {config : Config} {height level : Nat}
    {bounds : Bounds} (hvalid : config.Valid)
    (hcontext : context.Fits config height level bounds) (page : PageId)
    (contents : Leaf V) :
    Cell.FromLeaf
      ((context.rungs (.leaf page contents)).map (·.cell)) := by
  cases hcontext with
  | root => constructor <;> simp [rungs]
  | @inner frame rest level bounds hrest haround hwidth hcapacity =>
      obtain ⟨pairing, hpair⟩ := frame.exists_pairUp
        (hvalid.two_le_width hwidth) (.leaf page contents)
      rw [rungs, Frame.rung?, Frame.beside?_pairUp hpair, Option.map_some,
        Option.toList_some, List.singleton_append, List.map_cons]
      constructor
      · rintro cell ⟨⟩
        rfl
      · intro cell hcell
        obtain ⟨rung, hrung, rfl⟩ := List.mem_map.mp hcell
        exact kind_of_mem_rungs (frame.plug_kind _) hrung

/-! ## Removals -/

theorem not_split_of_mem_repairEvents {config : Config} {height : Nat}
    {rungs : List (Rung V)} {event : Event}
    (hevent : event ∈ config.repairEvents height rungs) :
    (∀ kind, event.isCounted (.split kind) = false) ∧
      event.isCounted .rootSplit = false := by
  have hrung : ∀ rung : Rung V,
      (∀ kind, (rung.event config).isCounted (.split kind) = false) ∧
        (rung.event config).isCounted .rootSplit = false := by
    intro rung
    exact ⟨fun kind => rfl, rfl⟩
  induction rungs with
  | nil => cases hevent
  | cons rung others ih =>
      cases others with
      | nil =>
          rw [Config.repairEvents] at hevent
          rcases List.mem_cons.mp hevent with rfl | hcollapse
          · exact hrung rung
          · split at hcollapse
            · rw [List.mem_singleton.mp hcollapse]
              exact ⟨fun kind => rfl, rfl⟩
            · cases hcollapse
      | cons upper rest =>
          rw [Config.repairEvents] at hevent
          rcases List.mem_cons.mp hevent with rfl | hlater
          · exact hrung rung
          · split at hlater
            · exact ih hlater
            · cases hlater

theorem Transition.repaired {events : List Event} (hsound : tree.Sound t)
    (htransition : tree.Transition t next u events)
    (hnoSplit : ∀ event ∈ events,
      (∀ kind, event.isCounted (.split kind) = false) ∧
        event.isCounted .rootSplit = false) :
    tree.Repaired next events := by
  have hnone : ∀ kind, events.countP (·.isCounted (.split kind)) = 0 := by
    intro kind
    rw [List.countP_eq_zero]
    intro event hevent
    simp [(hnoSplit event hevent).1 kind]
  have hnoRoot : events.countP (·.isCounted .rootSplit) = 0 := by
    rw [List.countP_eq_zero]
    intro event hevent
    simp [(hnoSplit event hevent).2]
  obtain ⟨hheight, hleaves, hbranches⟩ := htransition.alters.explain
  have hlive := hsound.stores.livePages
  have hliveNext := htransition.sound.stores.livePages
  rw [t.length_cells_eq_extent tree.height] at hlive
  rw [u.length_cells_eq_extent next.height] at hliveNext
  have hleafSplits := hnone .leaf
  have hbranchSplits := hnone .branch
  constructor
  · intro counted
    rw [htransition.continues.stats, Stats.counter_recordAll]
  · omega
  · exact hheight.trans (by rw [hnoRoot]; rfl)

section Leads

variable {key : Key} {page : PageId} {contents : Leaf V} {bounds : Bounds}
  {value : V}

/-- A leaf that is safe loses the entry, and nothing else changes. -/
theorem Sound.remove_of_isSafe (hsound : tree.Sound t)
    (hleads : Leads tree.config tree.height t key context page contents bounds)
    (hdescend : tree.descendBy (.safe tree.config .delete) key .delete =
      .ok ⟨.exclusive, .page page context.slot ::
        context.held (.safe tree.config .delete) (.leaf page contents)⟩)
    (hpresent : t.entries.lookup key = some value)
    (hsafe : (Node.leaf contents).isSafe tree.config .delete context.isEmpty) :
    tree.remove key = .ok {
      result := .ok value
      tree := tree.setNode page (.leaf (contents.erase key)) } := by
  have hleaf := hsound.stores.holds.leaf hleads.mem_cells
  have hget : contents.get? key = some value :=
    (hleads.get?_eq hsound.wellFormed.fits).trans hpresent
  have hnone : context.held (.safe tree.config .delete)
      (.leaf page contents) = [] :=
    (held_eq _ _ _).trans (if_pos hsafe)
  rw [remove, descend_eq_descendBy, hdescend, hnone]
  simp [removeAlong, removeAlongNoted, LatchPath.target, hleaf, hget,
    repairUnderfull, bind, Except.bind, pure, Except.pure]

/-- The repairs after a removal from a leaf that has just its least size. -/
theorem Sound.exists_remove_repairs (hsound : tree.Sound t)
    (hleads : Leads tree.config tree.height t key context page contents bounds)
    (hdescend : tree.descendBy (.safe tree.config .delete) key .delete =
      .ok ⟨.exclusive, .page page context.slot ::
        context.held (.safe tree.config .delete) (.leaf page contents)⟩)
    (hpresent : t.entries.lookup key = some value) (hne : context ≠ [])
    (hsize : contents.entries.length ≤ tree.config.minSize .leaf) :
    ∃ next,
      tree.remove key = .ok {
        result := .ok value
        tree := next
        events := tree.config.repairEvents tree.height
          (context.rungs (.leaf page contents)) } ∧
      tree.Repaired next (tree.config.repairEvents tree.height
        (context.rungs (.leaf page contents))) := by
  obtain ⟨settled, next, hsettled, hremoveAlong, _⟩ :=
    hsound.exists_removeAlong_present hleads hpresent
  have hget : contents.get? key = some value :=
    (hleads.get?_eq hsound.wellFormed.fits).trans hpresent
  have hlength : (Subtree.leaf page (contents.erase key)).size + 1 =
      (Subtree.leaf page contents).size := by
    have hmem := hleads.fits.get?_eq_some_iff.mp hget
    have herase := Leaf.length_erase hmem
    have hpos := List.length_pos_of_mem hmem
    rw [size_leaf, size_leaf, herase]
    omega
  have hsized : (Subtree.leaf page contents).Sized tree.config false := by
    have hinner : context.isEmpty = false := by simpa using hne
    exact hinner ▸ hleads.sized
  have hevents : settled.events = tree.config.repairEvents tree.height
      (context.rungs (.leaf page contents)) := by
    have hnot : ¬ tree.config.minSize .leaf < contents.entries.length := by
      omega
    have hkind : (Subtree.leaf page (contents.erase key)).kind =
        (Subtree.leaf page contents).kind := rfl
    rw [hsettled, repairUp_events hsound.valid hleads.outer hne
      hleads.erase_fits hkind hlength hsized]
    exact if_neg hnot
  have hguards := guards_held (ReleaseRule.cautious_safe tree.config .delete)
    context (.leaf page contents)
  have hremove := hremoveAlong _ hguards
  rw [hevents] at hremove
  have hrun : tree.remove key = .ok {
      result := .ok value
      tree := next
      events := tree.config.repairEvents tree.height
        (context.rungs (.leaf page contents)) } := by
    rw [remove, descend_eq_descendBy, hdescend]
    exact hremove
  obtain ⟨outcome, u, houtcome, htransition, _⟩ := hsound.exists_remove key
  rw [hrun, Except.ok.injEq] at houtcome
  subst houtcome
  exact ⟨next, hrun, htransition.repaired hsound
    fun event hevent => not_split_of_mem_repairEvents hevent⟩

end Leads

/-- A removal as the tree shows it before: what becomes of the leaf alone if it
is the root or has more than its least size, and which repairs there are if not.
-/
structure Predicts (tree : Tree V) (key : Key) (value : V) (page : PageId)
    (leaf : Leaf V) (rungs : List (Rung V)) : Prop where
  found : tree.leafFor key = .ok (page, leaf)
  climbed : tree.rungsUp key = .ok rungs
  length : rungs.length + 1 = tree.height
  fromLeaf : Cell.FromLeaf (rungs.map (·.cell))
  quiet : page = tree.root ∨ tree.config.minSize .leaf < leaf.entries.length →
    tree.remove key = .ok {
      result := .ok value
      tree := tree.setNode page (.leaf (leaf.erase key)) }
  repairs : page ≠ tree.root →
    leaf.entries.length ≤ tree.config.minSize .leaf →
      ∃ next,
        tree.remove key = .ok {
          result := .ok value
          tree := next
          events := tree.config.repairEvents tree.height rungs } ∧
        tree.Repaired next (tree.config.repairEvents tree.height rungs)

theorem Sound.exists_predicts (hsound : tree.Sound t) {key : Key} {value : V}
    (hpresent : t.entries.lookup key = some value) :
    ∃ page leaf rungs, tree.Predicts key value page leaf rungs := by
  obtain ⟨context, page, contents, bounds, hleads, hdescend⟩ :=
    hsound.exists_descend key
  have hshows := hsound.shows
  have hleaf := hsound.stores.holds.leaf hleads.mem_cells
  rw [hleads.plug] at hshows
  have hroot : page = tree.root ↔ context.isEmpty := hshows.page_eq_root_iff
  have hlength := length_rungs hsound.valid hleads.outer (.leaf page contents)
  refine ⟨page, contents, context.rungs (.leaf page contents), ?_, ?_, ?_, ?_,
    ?_, ?_⟩
  · simp [leafFor, descend_eq_descendBy, hdescend, LatchPath.page, hleaf, bind,
      Except.bind, pure, Except.pure]
  · rw [rungsUp, hdescend, ← hshows.rungsAlong_eq hsound.valid hleads.outer,
      linksUp_append_root]
    rfl
  · rw [hlength]
    exact hleads.outer.length_add_level
  · exact fromLeaf_rungs hsound.valid hleads.outer page contents
  · intro hspare
    have hsafe : (Node.leaf contents).isSafe tree.config .delete
        context.isEmpty := by
      rw [hroot] at hspare
      cases hempty : context.isEmpty with
      | true => rfl
      | false =>
          rw [hempty] at hspare
          exact decide_eq_true (hspare.resolve_left Bool.false_ne_true)
    exact hsound.remove_of_isSafe hleads (hdescend _ .delete) hpresent hsafe
  · intro hinner hsize
    have hne : context ≠ [] := by
      rw [Ne, hroot] at hinner
      simpa using hinner
    exact hsound.exists_remove_repairs hleads (hdescend _ .delete) hpresent hne
      hsize

/-- A removal of a key that is there empties a slot of a leaf.  If the leaf has
no entry to spare, it is repaired with its sibling, and repairs go on upward as
long as they are merges below parents without a child to spare.  If the last of
them leaves the root with one child, the tree loses a level. -/
theorem remove_repairs_minimal_run {config : Config}
    (hconfig : config.validate = .ok ()) (history : List (Change V)) :
    ∃ tree, (Tree.empty config).changeAll history = .ok tree ∧
      tree.config = config ∧
      ∀ key value, tree.get? key = .ok (some value) →
        ∃ page leaf rungs, tree.Predicts key value page leaf rungs := by
  have hvalid := Config.validate_eq_ok_iff.mp hconfig
  have hempty := sound_empty (V := V) hvalid
  obtain ⟨tree, t, hrun, hsound⟩ := hempty.exists_changeAll history
  refine ⟨tree, hrun, hempty.changeAll_config hrun,
    fun key value hpresent => ?_⟩
  rw [hsound.get?_eq_lookup, Except.ok.injEq] at hpresent
  exact hsound.exists_predicts hpresent

/-- The last leaf and the last branch have no entry to spare, and the root has
two children. -/
theorem remove_repairs_minimal_run_to_root :
    ({ degree := 3 } : Config).validate = .ok () ∧
      ∃ tree page contents rungs next,
        (Tree.empty { degree := 3 }).changeAll
            (([1, 2, 3, 4, 5, 6, 7, 8, 9, 10] : List Key).map
              (.insert · 'a')) = .ok tree ∧
          tree.get? 10 = .ok (some 'a') ∧
          tree.Predicts 10 'a' page contents rungs ∧ page ≠ tree.root ∧
          contents.entries.length ≤ tree.config.minSize .leaf ∧
          tree.remove 10 = .ok {
            result := .ok 'a'
            tree := next
            events := [.rebalanced .leaf .left .merge 1,
              .rebalanced .branch .left .merge 1, .rootCollapsed 2] } ∧
          tree.Repaired next [.rebalanced .leaf .left .merge 1,
            .rebalanced .branch .left .merge 1, .rootCollapsed 2] := by
  have hconfig : ({ degree := 3 } : Config).validate = .ok () := rfl
  obtain ⟨tree, hrun, htree, hremovals⟩ := remove_repairs_minimal_run hconfig
    (([1, 2, 3, 4, 5, 6, 7, 8, 9, 10] : List Key).map (.insert · 'a'))
  have hpresent : ((Tree.empty { degree := 3 }).changeAll
      (([1, 2, 3, 4, 5, 6, 7, 8, 9, 10] : List Key).map
        (.insert · 'a'))).bind (·.get? 10) = .ok (some 'a') := by
    decide +kernel
  rw [hrun, Except.bind] at hpresent
  obtain ⟨page, contents, rungs, hpredicts⟩ := hremovals 10 'a' hpresent
  have hleaf : ((Tree.empty { degree := 3 }).changeAll
      (([1, 2, 3, 4, 5, 6, 7, 8, 9, 10] : List Key).map
        (.insert · 'a'))).bind (fun tree => (tree.leafFor 10).map fun found =>
          (found.1, tree.root, found.2.entries.length)) = .ok (5, 7, 2) := by
    decide +kernel
  rw [hrun, Except.bind, hpredicts.found, Except.map, Except.ok.injEq,
    Prod.mk.injEq, Prod.mk.injEq] at hleaf
  dsimp only at hleaf
  obtain ⟨hpage, hroot, hlength⟩ := hleaf
  have hinner : page ≠ tree.root := by
    rw [hpage, hroot]
    decide
  have hleast : contents.entries.length ≤ tree.config.minSize .leaf := by
    rw [hlength, htree]
    decide
  obtain ⟨next, hremove, hrepaired⟩ := hpredicts.repairs hinner hleast
  have hevents : ((Tree.empty { degree := 3 }).changeAll
      (([1, 2, 3, 4, 5, 6, 7, 8, 9, 10] : List Key).map
        (.insert · 'a'))).bind (fun tree => (tree.remove 10).map (·.events)) =
      .ok [.rebalanced .leaf .left .merge 1,
        .rebalanced .branch .left .merge 1, .rootCollapsed 2] := by
    decide +kernel
  rw [hrun, Except.bind, hremove, Except.map, Except.ok.injEq] at hevents
  dsimp only at hevents
  rw [hevents] at hremove hrepaired
  exact ⟨hconfig, tree, page, contents, rungs, next, hrun, hpresent, hpredicts,
    hinner, hleast, hremove, hrepaired⟩

end Tree

end LatchTree
