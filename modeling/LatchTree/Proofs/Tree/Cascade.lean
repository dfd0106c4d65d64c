import LatchTree.Proofs.Subtree.Cascade
import LatchTree.Proofs.Tree.Release

/-!
# Cascades of splits in a tree

How many pages an insertion splits is seen before it is made: as many as there
are full pages in a row at the lower end of the way from the root to the leaf
that covers the key.  That number settles the events, the counters and the height
after the insertion as well.
-/

namespace LatchTree

open Subtree

variable {V : Type}

def Link.page? : Link → Option PageId
  | .root => none
  | .page id _ => some id

/-- The events of splits that climb from a leaf, given the separators. -/
def Config.splitEvents (config : Config) : List Key → List Event
  | [] => []
  | first :: rest =>
      .pageSplit .leaf (config.keptSize .leaf) first ::
        rest.map (.pageSplit .branch (config.keptSize .branch))

/-- The counters after splits of so many pages, a leaf first, in a tree of the
height.  If there are as many splits as levels, the tree has a new root. -/
def Stats.countSplits (stats : Stats) (splits height : Nat) : Stats :=
  let grown := if splits = height then 1 else 0
  { stats with
    leafSplits := stats.leafSplits + min splits 1
    branchSplits := stats.branchSplits + (splits - 1)
    rootSplits := stats.rootSplits + grown
    livePages := stats.livePages + splits + grown }

namespace Tree

/-- The pages from the leaf that covers a key up to the root. -/
def pathUp (tree : Tree V) (key : Key) : Except Fault (List (Cell V)) := do
  let path ← tree.descendBy .never key .read
  (path.links.filterMap Link.page?).mapM fun id => do
    return (id, ← tree.pages.node id)

/-- What becomes of a tree when an entry is inserted at the lower end of a path
to the root. -/
structure SplitsRun (tree next : Tree V) (path : List (Cell V))
    (halves : List (Siblings (Node V))) : Prop where
  /-- The full pages at the lower end of the path are halved. -/
  halved : List.Forall₂
    (fun e pair => e.1.2.Halved tree.config pair ∧
      next.pages.liveNode? e.1.1 = some pair.left ∧
        next.pages.liveNode? e.2 = some pair.right)
    ((Cell.fullRun tree.config path).zipIdx tree.pages.size) halves
  /-- The first page that is not full stays whole. -/
  gains : ∀ cell ∈ path[(Cell.fullRun tree.config path).length]?,
    ∃ node, cell.2.Gains node ∧ next.pages.liveNode? cell.1 = some node
  /-- All other pages keep what they hold. -/
  keeps : ∀ id, id < tree.pages.size →
    (∀ e ∈ path.take ((Cell.fullRun tree.config path).length + 1), e.1 ≠ id) →
      next.pages.node id = tree.pages.node id
  stats : next.stats =
    tree.stats.countSplits (Cell.fullRun tree.config path).length tree.height
  height : next.height = tree.height +
    if (Cell.fullRun tree.config path).length = tree.height then 1 else 0

end Tree

/-! ## Paths -/

theorem Context.pages_held_never (context : Context V) (t : Subtree V) :
    t.page :: (context.held .never t).filterMap Link.page? =
      (context.cellsUp t).map (·.1) := by
  induction context generalizing t with
  | nil => rfl
  | cons frame rest ih =>
      rw [cellsUp, List.map_cons, ← ih (frame.plug t)]
      rfl

namespace Tree.Sound

variable {tree : Tree V} {t : Subtree V} {key : Key}

theorem pathUp_eq (hsound : tree.Sound t) {context : Context V} {page : PageId}
    {contents : Leaf V} {bounds : Bounds}
    (hleads : Leads tree.config tree.height t key context page contents bounds)
    (hdescend : tree.descendBy .never key .read =
      .ok ⟨.shared, .page page context.slot ::
        context.held .never (.leaf page contents)⟩) :
    tree.pathUp key = .ok (context.cellsUp (.leaf page contents)) := by
  have hpages : page ::
        (context.held .never (.leaf page contents)).filterMap Link.page? =
      (context.cellsUp (.leaf page contents)).map (·.1) :=
    context.pages_held_never (.leaf page contents)
  have hnodes : ∀ cell ∈ context.cellsUp (.leaf page contents),
      (do return (cell.1, ← tree.pages.node cell.1) :
        Except Fault (Cell V)) = .ok cell := by
    intro cell hcell
    have hmem := context.cellsUp_subset (.leaf page contents) hcell
    rw [← hleads.plug] at hmem
    rw [hsound.stores.holds.node hmem]
    rfl
  have hall := mapM_eq_ok (g := id) hnodes
  rw [List.map_id] at hall
  have hmapped : ((context.cellsUp (.leaf page contents)).map (·.1)).mapM
      (fun id => (do return (id, ← tree.pages.node id) :
        Except Fault (Cell V))) =
      .ok (context.cellsUp (.leaf page contents)) := by
    rw [List.mapM_map]
    exact hall
  rw [← hpages] at hmapped
  rw [pathUp, hdescend]
  exact hmapped

end Tree.Sound

/-! ## Events and counters -/

namespace Cell

variable {config : Config}

/-- On a path from a leaf to the root, only the first page is a leaf. -/
structure FromLeaf (path : List (Cell V)) : Prop where
  leaf : ∀ cell ∈ path.head?, cell.2.kind = .leaf
  branch : ∀ cell ∈ path.tail, cell.2.kind = .branch

theorem FromLeaf.fullRun {path : List (Cell V)} (hpath : FromLeaf path) :
    FromLeaf (fullRun config path) := by
  cases path with
  | nil => exact hpath
  | cons first rest =>
      cases hfull : first.2.isFull config with
      | false =>
          rw [fullRun_cons_of_not_full hfull]
          constructor <;> simp
      | true =>
          rw [fullRun_cons_of_full hfull]
          have hsub := (List.takeWhile_sublist (l := rest)
            (·.2.isFull config)).subset
          exact ⟨hpath.leaf, fun cell hcell => hpath.branch cell (hsub hcell)⟩

theorem events_of_kind {cells : List (Cell V)} {kind : PageKind}
    {halves : List (Siblings (Node V))}
    (hcells : ∀ cell ∈ cells, cell.2.kind = kind)
    (hhalved : List.Forall₂ (fun old pair => old.2.Halved config pair) cells
      halves) :
    halves.map (fun pair =>
        Event.pageSplit pair.left.kind pair.left.size pair.separator) =
      (halves.map (·.separator)).map
        (.pageSplit kind (config.keptSize kind)) := by
  induction hhalved with
  | nil => rfl
  | @cons first pair rest halves hfirst _ ih =>
      obtain ⟨hkind, hkinds⟩ := List.forall_mem_cons.mp hcells
      rw [List.map_cons, ih hkinds, hfirst.leftKind, hfirst.leftSize, hkind]
      rfl

theorem FromLeaf.events_eq {cells : List (Cell V)}
    {halves : List (Siblings (Node V))} (hcells : FromLeaf cells)
    (hhalved : List.Forall₂ (fun old pair => old.2.Halved config pair) cells
      halves) :
    halves.map (fun pair =>
        Event.pageSplit pair.left.kind pair.left.size pair.separator) =
      config.splitEvents (halves.map (·.separator)) := by
  cases hhalved with
  | nil => rfl
  | @cons first pair rest halves hfirst hrest =>
      have hleaf := hcells.leaf first rfl
      rw [List.map_cons, events_of_kind hcells.branch hrest, hfirst.leftKind,
        hfirst.leftSize, hleaf]
      rfl

end Cell

theorem Event.foldl_record_branchSplits (size : Nat) (separators : List Key)
    (stats : Stats) :
    (separators.map (Event.pageSplit .branch size)).foldl Stats.record stats =
      { stats with
        branchSplits := stats.branchSplits + separators.length
        livePages := stats.livePages + separators.length } := by
  induction separators generalizing stats with
  | nil => rfl
  | cons separator rest ih =>
      rw [List.map_cons, List.foldl_cons, ih]
      simp only [Stats.record, Stats.countAllocated, Stats.countSplit,
        List.length_cons, Nat.add_assoc, Nat.add_comm 1]

theorem Config.foldl_record_splitEvents (config : Config)
    (separators : List Key) (stats : Stats) :
    (config.splitEvents separators).foldl Stats.record stats =
      { stats with
        leafSplits := stats.leafSplits + min separators.length 1
        branchSplits := stats.branchSplits + (separators.length - 1)
        livePages := stats.livePages + separators.length } := by
  cases separators with
  | nil => rfl
  | cons first rest =>
      rw [splitEvents, List.foldl_cons, Event.foldl_record_branchSplits]
      simp only [Stats.record, Stats.countAllocated, Stats.countSplit,
        List.length_cons, Nat.add_sub_cancel, Nat.add_assoc, Nat.add_comm 1]
      rw [Nat.min_eq_right (Nat.le_add_left 1 _)]

/-! ## Insertions -/

namespace Context

theorem fromLeaf_cellsUp (context : Context V) (page : PageId)
    (contents : Leaf V) :
    Cell.FromLeaf (context.cellsUp (.leaf page contents)) := by
  have hkinds := context.kinds_cellsUp (.leaf page contents)
  constructor
  · intro cell hcell
    rw [head?_cellsUp] at hcell
    obtain rfl := Option.mem_some.mp hcell
    rfl
  · intro cell hcell
    have htail := congrArg List.tail hkinds
    rw [← List.map_tail, List.tail_cons] at htail
    have hmem := List.mem_map_of_mem (f := (·.2.kind)) hcell
    rw [htail] at hmem
    exact List.eq_of_mem_replicate hmem

end Context

namespace Tree

namespace Sound

variable {tree : Tree V} {t : Subtree V} {key : Key}

theorem node_eq_of_keeps {next : Tree V} {u : Subtree V} {events : List Event}
    (hsound : tree.Sound t) (hnext : next.Sound u)
    (hcontinues : tree.Continues next events) {id : PageId}
    (hid : id < tree.pages.size)
    (hkeeps : ∀ node, (id, node) ∈ t.cells → (id, node) ∈ u.cells) :
    next.pages.node id = tree.pages.node id := by
  obtain ⟨page, hpage⟩ : ∃ page, tree.pages.page? id = some page :=
    ⟨_, Array.getElem?_eq_getElem hid⟩
  have hnode : tree.pages.node id = .ok page.node := by
    rw [PageTable.node, PageTable.page, hpage]
    rfl
  cases hretired : page.retired with
  | false =>
      have hcell := hsound.stores.holds.mem_of_page? hpage hretired
      rw [hnode, hnext.stores.holds.node (hkeeps _ hcell)]
  | true =>
      obtain ⟨later, hlater, _, hsame⟩ := hcontinues.pages id page hpage
      rw [hsame hretired] at hlater
      rw [hnode, PageTable.node, PageTable.page, hlater]
      rfl

section Leads

variable {context : Context V} {page : PageId} {contents : Leaf V}
  {bounds : Bounds} {settled : Settled V} {next : Tree V}
  {halves : List (Siblings (Node V))}

theorem length_path
    (hleads : Leads tree.config tree.height t key context page contents
      bounds) :
    (context.cellsUp (.leaf page contents)).length = tree.height :=
  (context.length_cellsUp _).trans hleads.outer.length_add_level

theorem cascade_events_eq
    (hleads : Leads tree.config tree.height t key context page contents bounds)
    {cells : List (Cell V)}
    (hcascades : Context.Cascades tree.config tree.height cells
      (context.cellsUp (.leaf page contents)) tree.pages.size settled halves) :
    settled.events =
      tree.config.splitEvents (halves.map (·.separator)) ++
        if (Cell.fullRun tree.config
            (context.cellsUp (.leaf page contents))).length = tree.height then
          (halves.getLast?.map fun pair =>
            .rootSplit (tree.height + 1) pair.separator).toList
        else [] := by
  have hcells : Cell.FromLeaf (Cell.fullRun tree.config
      (context.cellsUp (.leaf page contents))) :=
    (context.fromLeaf_cellsUp page contents).fullRun
  rw [hcascades.events, hcells.events_eq hcascades.forall₂_halved,
    length_path hleads]

theorem cascade_stats_eq (hsound : tree.Sound t)
    (hcontinues : tree.Continues next settled.events)
    (hleads : Leads tree.config tree.height t key context page contents bounds)
    {cells : List (Cell V)}
    (hcascades : Context.Cascades tree.config tree.height cells
      (context.cellsUp (.leaf page contents)) tree.pages.size settled halves) :
    next.stats = tree.stats.countSplits (Cell.fullRun tree.config
      (context.cellsUp (.leaf page contents))).length tree.height := by
  have hevents := cascade_events_eq hleads hcascades
  have hlength := hcascades.forall₂_halved.length_eq
  rw [hcontinues.stats, hevents, List.foldl_append,
    Config.foldl_record_splitEvents, List.length_map, ← hlength]
  unfold Stats.countSplits
  split
  next hall =>
    have hpos : 0 < halves.length := by
      rw [← hlength, hall]
      exact hsound.wellFormed.fits.height_pos
    rw [List.getLast?_eq_some_getLast (List.ne_nil_of_length_pos hpos)]
    rfl
  next => rfl

theorem splitsRun_of_cascades (hsound : tree.Sound t)
    (hnext : next.Sound settled.tree)
    (hcontinues : tree.Continues next settled.events)
    (hheight : settled.height = next.height)
    (hleads : Leads tree.config tree.height t key context page contents bounds)
    {inserted : Leaf V}
    (hcascades : Context.Cascades tree.config tree.height
      (context.plug (.leaf page inserted)).cells
      (context.cellsUp (.leaf page contents)) tree.pages.size settled halves) :
    tree.SplitsRun next (context.cellsUp (.leaf page contents)) halves := by
  have hlive : ∀ {id node}, (id, node) ∈ settled.tree.cells →
      next.pages.liveNode? id = some node :=
    fun hcell => (hnext.stores.holds.live_iff _ _).mpr hcell
  constructor
  · refine hcascades.halved.imp fun e pair hpair => ?_
    exact ⟨hpair.1, hlive hpair.2.1, hlive hpair.2.2⟩
  · intro cell hcell
    obtain ⟨node, hgains, hmem⟩ := hcascades.gains cell hcell
    exact ⟨node, hgains, hlive hmem⟩
  · intro id hid haway
    refine hsound.node_eq_of_keeps hnext hcontinues hid fun node hcell => ?_
    have hleaf : page ≠ id := by
      have hhead := context.head?_cellsUp (.leaf page contents)
      obtain ⟨others, hpath⟩ := List.head?_eq_some_iff.mp hhead
      rw [hpath, List.take_succ_cons] at haway
      exact haway _ List.mem_cons_self
    -- Only the leaf itself is another one when the entry has been put in.
    rw [hleads.plug] at hcell
    exact hcascades.keeps (id, node)
      (Context.mem_cells_plug_leaf hcell hleaf.symm) haway
  · exact cascade_stats_eq hsound hcontinues hleads hcascades
  · rw [← hheight, hcascades.height, length_path hleads]

end Leads

theorem exists_insert_splitsRun (hsound : tree.Sound t)
    (habsent : t.entries.lookup key = none) (value : V) :
    ∃ path next halves,
      tree.pathUp key = .ok path ∧ path.length = tree.height ∧
        tree.insert key value = .ok {
          result := .ok ()
          tree := next
          events := tree.config.splitEvents (halves.map (·.separator)) ++
            if (Cell.fullRun tree.config path).length = tree.height then
              (halves.getLast?.map fun pair =>
                .rootSplit (tree.height + 1) pair.separator).toList
            else [] } ∧
        tree.SplitsRun next path halves := by
  obtain ⟨context, page, contents, bounds, hleads, hdescend⟩ :=
    hsound.exists_descend key
  obtain ⟨settled, next, hsettled, hinsert, hnext, hcontinues, _⟩ :=
    hsound.exists_insertAlong_absent hleads habsent value
  have hguards := Context.guards_held
    (ReleaseRule.cautious_safe tree.config .insert) context
    (.leaf page contents)
  have hleaf : contents.get? key = none :=
    (hleads.get?_eq hsound.wellFormed.fits).trans habsent
  have hgains : (Subtree.leaf page contents).node.Gains
      (Subtree.leaf page (contents.insert key value)).node :=
    Node.gains_insert contents key value
  have hfits := hleads.insert_fits hleaf value
  have hswollen := hleads.insert_swollen value
  have hpage : (Subtree.leaf page (contents.insert key value)).page =
      (Subtree.leaf page contents).page := rfl
  obtain ⟨halves, hcascades⟩ := Context.exists_cascades hsound.valid
    hleads.outer hfits hswollen hpage hgains tree.pages.size
  have hheight : settled.height = next.height := by
    have hwellFormed := Context.splitUp_wellFormed hsound.valid hleads.outer
      hfits hswollen tree.pages.size
    rw [← hsettled] at hwellFormed
    exact hwellFormed.fits.height_unique hnext.wellFormed.fits
  rw [← hsettled] at hcascades
  refine ⟨context.cellsUp (.leaf page contents), next, halves,
    hsound.pathUp_eq hleads (hdescend .never .read), length_path hleads, ?_,
    hsound.splitsRun_of_cascades hnext hcontinues hheight hleads hcascades⟩
  rw [insert, descend_eq_descendBy, hdescend,
    ← cascade_events_eq hleads hcascades]
  exact hinsert _ hguards

theorem changeAll_config (hsound : tree.Sound t) {changes : List (Change V)}
    {next : Tree V} (hrun : tree.changeAll changes = .ok next) :
    next.config = tree.config := by
  induction changes generalizing tree t with
  | nil =>
      cases hrun
      rfl
  | cons change rest ih =>
      obtain ⟨mid, u, _, hchange, hmid, hcontinues, _⟩ :=
        hsound.exists_change change
      rw [changeAll, hchange] at hrun
      exact (ih hmid hrun).trans hcontinues.config

end Sound

/-- An insertion of a key that is not there splits the full pages in a row at the
lower end of the key's way, from the leaf up, and no other page.  If these are
all pages of the way, the root is split last, and the tree grows by one
level. -/
theorem insert_splits_full_run {config : Config}
    (hconfig : config.validate = .ok ()) (history : List (Change V)) :
    ∃ tree, (Tree.empty config).changeAll history = .ok tree ∧
      tree.config = config ∧
      ∀ key value, tree.get? key = .ok none →
        ∃ path next halves,
          tree.pathUp key = .ok path ∧ path.length = tree.height ∧
            tree.insert key value = .ok {
              result := .ok ()
              tree := next
              events := tree.config.splitEvents (halves.map (·.separator)) ++
                if (Cell.fullRun tree.config path).length = tree.height then
                  (halves.getLast?.map fun pair =>
                    .rootSplit (tree.height + 1) pair.separator).toList
                else [] } ∧
            tree.SplitsRun next path halves := by
  have hvalid := Config.validate_eq_ok_iff.mp hconfig
  have hempty := sound_empty (V := V) hvalid
  obtain ⟨tree, t, hrun, hsound⟩ := hempty.exists_changeAll history
  refine ⟨tree, hrun, hempty.changeAll_config hrun, fun key value habsent => ?_⟩
  rw [hsound.get?_eq_lookup, Except.ok.injEq] at habsent
  exact hsound.exists_insert_splitsRun habsent value

/-- The rightmost leaf and the root above it are full. -/
theorem insert_splits_full_run_to_root :
    ({ degree := 3 } : Config).validate = .ok () ∧
      ∃ tree path next halves,
        (Tree.empty { degree := 3 }).changeAll
            [.insert 1 'a', .insert 2 'b', .insert 3 'c', .insert 4 'd',
              .insert 5 'e', .insert 6 'f', .insert 7 'g', .insert 8 'h',
              .insert 9 'i'] = .ok tree ∧
          tree.get? 10 = .ok none ∧ tree.pathUp 10 = .ok path ∧
          tree.insert 10 'j' = .ok {
            result := .ok ()
            tree := next
            events := [.pageSplit .leaf 2 9, .pageSplit .branch 3 7,
              .rootSplit 3 7] } ∧
          tree.SplitsRun next path halves := by
  have hconfig : ({ degree := 3 } : Config).validate = .ok () := rfl
  obtain ⟨tree, hrun, _, hinsertion⟩ := insert_splits_full_run hconfig
    [.insert 1 'a', .insert 2 'b', .insert 3 'c', .insert 4 'd', .insert 5 'e',
      .insert 6 'f', .insert 7 'g', .insert 8 'h', .insert 9 'i']
  have habsent : ((Tree.empty { degree := 3 }).changeAll
      [.insert 1 'a', .insert 2 'b', .insert 3 'c', .insert 4 'd',
        .insert 5 'e', .insert 6 'f', .insert 7 'g', .insert 8 'h',
        .insert 9 'i']).bind (·.get? 10) = .ok none := by
    decide +kernel
  rw [hrun, Except.bind] at habsent
  have hevents : ((Tree.empty { degree := 3 }).changeAll
      [.insert 1 'a', .insert 2 'b', .insert 3 'c', .insert 4 'd',
        .insert 5 'e', .insert 6 'f', .insert 7 'g', .insert 8 'h',
        .insert 9 'i']).bind
        (fun tree => (tree.insert 10 'j').map (·.events)) =
      .ok [.pageSplit .leaf 2 9, .pageSplit .branch 3 7, .rootSplit 3 7] := by
    decide +kernel
  obtain ⟨path, next, halves, hpath, _, hinsert, hsplits⟩ :=
    hinsertion 10 'j' habsent
  rw [hrun, Except.bind, hinsert, Except.map, Except.ok.injEq] at hevents
  dsimp only at hevents
  rw [hevents] at hinsert
  exact ⟨hconfig, tree, path, next, halves, hrun, habsent, hpath, hinsert,
    hsplits⟩

end Tree

end LatchTree
