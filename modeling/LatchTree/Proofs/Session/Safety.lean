import LatchTree.Proofs.Scan.Rest
import LatchTree.Proofs.Session.Responses
import LatchTree.Proofs.Tree.Retirement
import LatchTree.Proofs.Tree.Transition

/-!
# Sessions without faults

A session is sound if its tree is and all its open scans are ready to go on.  In
a sound session any request is performed without a fault and leaves a sound
session.  So whatever requests a session over a new tree has performed, with any
scans left open, no fault can be met, all pages in use have kept their size
limits, and the open scans remember nothing but leaves.
-/

namespace LatchTree

open Subtree

variable {V : Type}

namespace Tree

/-! ## Pages of a sound tree -/

theorem sized_of_mem_cells {config : Config} {height : Nat} {bounds : Bounds}
    {t : Subtree V} (hfits : t.Fits config height bounds) {cell : Cell V}
    (hcell : cell ∈ t.cells) :
    cell = (t.page, t.node) ∨
      config.leastSize false cell.2.kind ≤ cell.2.size ∧
        cell.2.size ≤ config.capacity cell.2.kind := by
  induction hfits with
  | @leaf bounds page contents hleaf =>
      rw [cells_leaf, List.mem_singleton] at hcell
      exact .inl hcell
  | @branch height bounds page children hne hsized hchildren ih =>
      rw [cells_branch, List.mem_cons] at hcell
      rcases hcell with hcell | hcell
      · exact .inl hcell
      · obtain ⟨e, he, hmem⟩ := exists_mem_of_cellsOf hcell
        obtain ⟨inner, hinner⟩ := exists_childBounds bounds he
        rcases ih _ hinner hmem with rfl | hwithin
        · exact .inr (hsized e he)
        · exact .inr hwithin

namespace Sound

variable {tree : Tree V} {t : Subtree V}

theorem subtree_eq (hsound : tree.Sound t) : tree.subtree = .ok t :=
  hsound.shows.subtree_eq

/-- A page in use keeps the size limits of its kind. -/
theorem sized_of_page? (hsound : tree.Sound t) {id : PageId} {page : Page V}
    (hpage : tree.pages.page? id = some page) (hlive : page.retired = false) :
    tree.config.leastSize (decide (id = tree.root)) page.node.kind ≤
        page.node.size ∧
      page.node.size ≤ tree.config.capacity page.node.kind := by
  have hcell := hsound.stores.holds.mem_of_page? hpage hlive
  have hrootCell : (t.page, t.node) ∈ t.cells := by
    rw [cells_eq]
    exact List.mem_cons_self
  by_cases hid : id = tree.root
  · rw [decide_eq_true hid]
    have hnode : page.node = t.node := by
      have hnodes := (hsound.stores.holds.live_iff id page.node).mpr hcell
      rw [hid, hsound.root,
        (hsound.stores.holds.live_iff t.page t.node).mpr hrootCell] at hnodes
      exact (Option.some.inj hnodes).symm
    rw [hnode]
    exact hsound.wellFormed.sized
  · rw [decide_eq_false hid]
    rcases sized_of_mem_cells hsound.wellFormed.fits hcell with heq | hwithin
    · have hroot : id = t.page := congrArg Prod.fst heq
      exact absurd (hroot.trans hsound.root.symm) hid
    · exact hwithin

end Sound

/-! ## The root pointer -/

theorem root_of_splitPage {tree next : Tree V} {page : PageId}
    {entry : Key × PageId} {event : Event}
    (hsplit : tree.splitPage page = .ok (next, entry, event)) :
    next.root = tree.root := by
  obtain ⟨node, _, hsplit⟩ := exists_of_bind_eq_ok hsplit
  obtain ⟨halves, _, hnext⟩ := exists_of_bind_eq_ok hsplit
  cases hnext
  rfl

theorem root_of_splitOverfull {tree : Tree V} {page : PageId} {slot : Nat}
    {above : List Link} {result : Tree V × List Event}
    (hsplit : tree.splitOverfull page slot above = .ok result)
    (hfree : Link.root ∉ above) : result.1.root = tree.root := by
  refine splitOverfull_keeps (P := fun next => next.root = tree.root) hsplit
    ?_ ?_ ?_ rfl
  · intro old next page entry event hstep hkept
    exact (root_of_splitPage hstep).trans hkept
  · exact fun _ _ hkept => hkept
  · exact fun hroot => absurd hroot hfree

theorem root_of_repair {tree : Tree V} {page : PageId} {slot : Nat}
    {parent : PageId} {result : Tree V × RepairAction × Event × List PageId}
    (hrepair : tree.repair page slot parent = .ok result) :
    result.1.root = tree.root := by
  obtain ⟨branch, _, hrepair⟩ := exists_of_bind_eq_ok hrepair
  obtain ⟨⟨direction, pages⟩, _, hrepair⟩ := exists_of_bind_eq_ok hrepair
  obtain ⟨pair, _, hrepair⟩ := exists_of_bind_eq_ok hrepair
  by_cases hfits : pair.left.size + pair.right.size ≤
      tree.config.capacity pair.left.kind
  · simp only [if_pos hfits] at hrepair
    obtain ⟨next, hmerge, hresult⟩ := exists_of_bind_eq_ok hrepair
    obtain ⟨nodes, _, hnext⟩ := exists_of_bind_eq_ok hmerge
    cases hresult
    cases hnext
    rfl
  · simp only [if_neg hfits] at hrepair
    obtain ⟨next, hborrow, hresult⟩ := exists_of_bind_eq_ok hrepair
    obtain ⟨shifted, _, hnext⟩ := exists_of_bind_eq_ok hborrow
    cases hresult
    cases hnext
    rfl

theorem root_of_repairUnderfull {tree : Tree V} {page : PageId} {slot : Nat}
    {above : List Link} {result : Tree V × List Event × List PageId}
    (hrepair : tree.repairUnderfull page slot above = .ok result)
    (hfree : Link.root ∉ above) : result.1.root = tree.root := by
  induction above generalizing tree page slot result with
  | nil =>
      cases hrepair
      rfl
  | cons link rest ih =>
      rw [List.mem_cons, not_or] at hfree
      cases link with
      | root => exact absurd rfl hfree.1
      | page parent parentSlot =>
          obtain ⟨node, _, hrepair⟩ := exists_of_bind_eq_ok hrepair
          by_cases hunder : node.isUnderfull tree.config
          · rw [if_pos hunder] at hrepair
            obtain ⟨⟨mid, action, event, noted⟩, hstep, hrepair⟩ :=
              exists_of_bind_eq_ok hrepair
            have hmid := root_of_repair hstep
            cases action with
            | borrow =>
                cases hrepair
                exact hmid
            | merge =>
                obtain ⟨⟨next, events, later⟩, hrest, hresult⟩ :=
                  exists_of_bind_eq_ok hrepair
                cases hresult
                exact (ih hrest hfree.2).trans hmid
          · rw [if_neg hunder] at hrepair
            cases hrepair
            rfl

end Tree

namespace LatchPath

/-- The path holds the latch of the root pointer exclusively. -/
structure HoldsRoot (path : LatchPath) : Prop where
  mode : path.mode = .exclusive
  root : .root ∈ path.links

theorem eq_of_target {path : LatchPath} {page : PageId} {slot : Nat}
    {above : List Link} (htarget : path.target = .ok (page, slot, above)) :
    path = ⟨.exclusive, .page page slot :: above⟩ := by
  obtain ⟨mode, links⟩ := path
  cases mode with
  | shared => cases htarget
  | exclusive =>
      cases links with
      | nil => cases htarget
      | cons link rest =>
          cases link with
          | root => cases htarget
          | page id idSlot =>
              cases htarget
              rfl

end LatchPath

namespace Tree

variable {tree : Tree V} {path : LatchPath} {key : Key}

theorem holdsRoot_of_insertAlong {value : V}
    {outcome : Outcome V (Except TreeError Unit)}
    (hinsert : tree.insertAlong path key value = .ok outcome)
    (hroot : outcome.tree.root ≠ tree.root) : path.HoldsRoot := by
  obtain ⟨⟨page, slot, above⟩, htarget, hinsert⟩ := exists_of_bind_eq_ok hinsert
  obtain ⟨leaf, _, hinsert⟩ := exists_of_bind_eq_ok hinsert
  by_cases hpresent : (leaf.get? key).isSome
  · simp only [if_pos hpresent] at hinsert
    cases hinsert
    exact absurd rfl hroot
  · simp only [if_neg hpresent] at hinsert
    obtain ⟨⟨next, events⟩, hsplit, hresult⟩ := exists_of_bind_eq_ok hinsert
    cases hresult
    rw [LatchPath.eq_of_target htarget]
    refine ⟨rfl, List.mem_cons_of_mem _ ?_⟩
    by_contra hfree
    exact hroot (root_of_splitOverfull hsplit hfree)

theorem holdsRoot_of_removeAlong {outcome : Outcome V (Except TreeError V)}
    (hremove : tree.removeAlong path key = .ok outcome)
    (hroot : outcome.tree.root ≠ tree.root) : path.HoldsRoot := by
  obtain ⟨⟨removed, noted⟩, hremove, hresult⟩ := exists_of_bind_eq_ok hremove
  cases hresult
  obtain ⟨⟨page, slot, above⟩, htarget, hremove⟩ := exists_of_bind_eq_ok hremove
  obtain ⟨leaf, _, hremove⟩ := exists_of_bind_eq_ok hremove
  cases hget : leaf.get? key with
  | none =>
      simp only [hget] at hremove
      cases hremove
      exact absurd rfl hroot
  | some value =>
      simp only [hget] at hremove
      obtain ⟨⟨next, events, noted⟩, hrepair, hresult⟩ :=
        exists_of_bind_eq_ok hremove
      cases hresult
      rw [LatchPath.eq_of_target htarget]
      refine ⟨rfl, List.mem_cons_of_mem _ ?_⟩
      by_contra hfree
      exact hroot (root_of_repairUnderfull hrepair hfree)

namespace Sound

variable {t : Subtree V}

theorem exists_containsAll (hsound : tree.Sound t) (keys : List Key) :
    ∃ tally, tree.containsAll keys = .ok tally := by
  induction keys with
  | nil => exact ⟨{}, rfl⟩
  | cons key rest ih =>
      obtain ⟨tally, hrest⟩ := ih
      refine ⟨tally.count (t.entries.lookup key).isSome, ?_⟩
      rw [containsAll, hsound.contains_eq]
      simp only [bind, Except.bind, hrest]
      rfl

end Sound

end Tree

/-! ## Sessions -/

namespace Session

/-- The tree is sound, and each open scan is ready to go on. -/
structure Sound (session : Session V) (t : Subtree V) : Prop where
  tree : session.tree.Sound t
  ready : ∀ entry ∈ session.scans, entry.2.Ready session.tree.pages

namespace Sound

variable {session : Session V} {t : Subtree V}

theorem closeScan (hsession : session.Sound t) (id : ScanId) :
    (session.closeScan id).Sound t where
  tree := hsession.tree
  ready := fun entry hentry =>
    hsession.ready entry (List.mem_of_mem_filter hentry)

theorem keepScan (hsession : session.Sound t) (id : ScanId) {scan : Scan V}
    (hscan : scan.Ready session.tree.pages) :
    (session.keepScan id scan).Sound t where
  tree := hsession.tree
  ready := fun entry hentry => by
    rcases List.mem_cons.mp hentry with rfl | hentry
    · exact hscan
    · exact (hsession.closeScan id).ready entry hentry

theorem exists_perform_of_read (hsession : session.Sound t)
    {request : Request V} {reply : Reply V}
    (hperform : session.perform request = .ok ⟨reply, session, []⟩) :
    ∃ response u, session.perform request = .ok response ∧
      response.session.Sound u ∧
      Tree.Transition session.tree t response.session.tree u response.events :=
  ⟨_, t, hperform, hsession, .refl hsession.tree⟩

theorem exists_perform_of_change (hsession : session.Sound t) {α : Type}
    {request : Request V} {outcome : Outcome V α} {reply : α → Reply V}
    {u : Subtree V}
    (hchange :
      Tree.Transition session.tree t outcome.tree u outcome.events)
    (hperform : session.perform request =
      .ok (session.changed outcome reply)) :
    ∃ response u, session.perform request = .ok response ∧
      response.session.Sound u ∧
      Tree.Transition session.tree t response.session.tree u response.events :=
  ⟨_, u, hperform, ⟨hchange.sound, fun entry hentry =>
    (hsession.ready entry hentry).evolve hchange.continues.pages⟩, hchange⟩

theorem exists_nextEntries (hsession : session.Sound t) (id : ScanId)
    (count : Nat) :
    ∃ response u, session.nextEntries id count = .ok response ∧
      response.session.Sound u ∧
      Tree.Transition session.tree t response.session.tree u
        response.events := by
  cases hscan : session.scans.lookup id with
  | none =>
      refine ⟨⟨.entries [], session, []⟩, t, ?_, hsession, .refl hsession.tree⟩
      rw [nextEntries, hscan]
      rfl
  | some scan =>
      obtain ⟨before, after, hscans, _⟩ := List.lookup_eq_some_iff.mp hscan
      have hmem : (id, scan) ∈ session.scans := by
        rw [hscans]
        exact List.mem_append_right _ List.mem_cons_self
      obtain ⟨later, htake, hlater⟩ :=
        Scan.exists_take hsession.tree.shows
          ((hsession.ready _ hmem).poised hsession.tree) count
      refine ⟨⟨.entries ((scan.rest t).take count),
        session.keepScan id later, []⟩, t, ?_,
        hsession.keepScan id hlater.toReady,
        .refl hsession.tree⟩
      rw [nextEntries, hscan]
      simp only [htake]
      rfl

/-- No request meets a fault, and each is a transition of the tree. -/
theorem exists_perform (hsession : session.Sound t) (request : Request V) :
    ∃ response u, session.perform request = .ok response ∧
      response.session.Sound u ∧
      Tree.Transition session.tree t response.session.tree u
        response.events := by
  have htree := hsession.tree
  cases request with
  | insert key value =>
      obtain ⟨outcome, u, hinsert, hchange, _⟩ := htree.exists_insert key value
      apply hsession.exists_perform_of_change hchange
      rw [perform, hinsert]
      rfl
  | remove key =>
      obtain ⟨outcome, u, hremove, hchange, _⟩ := htree.exists_remove key
      apply hsession.exists_perform_of_change hchange
      rw [perform, hremove]
      rfl
  | lookup key =>
      apply hsession.exists_perform_of_read
      rw [perform, htree.lookup_eq]
      rfl
  | get key =>
      apply hsession.exists_perform_of_read
      rw [perform, htree.get?_eq_lookup]
      rfl
  | contains key =>
      apply hsession.exists_perform_of_read
      rw [perform, htree.contains_eq]
      rfl
  | size =>
      apply hsession.exists_perform_of_read
      rw [perform, htree.size_eq]
      rfl
  | isEmpty =>
      apply hsession.exists_perform_of_read
      rw [perform, htree.isEmpty_eq]
      rfl
  | height => exact hsession.exists_perform_of_read rfl
  | degree => exact hsession.exists_perform_of_read rfl
  | stats => exact hsession.exists_perform_of_read rfl
  | reportStats => exact ⟨_, t, rfl, hsession, .reportStats htree⟩
  | dump =>
      apply hsession.exists_perform_of_read
      rw [perform, Tree.dump, Tree.dumpWithin, htree.subtree_eq]
      rfl
  | dumpWithin room =>
      apply hsession.exists_perform_of_read
      rw [perform, Tree.dumpWithin, htree.subtree_eq]
      rfl
  | describe => exact hsession.exists_perform_of_read rfl
  | describeIndented => exact hsession.exists_perform_of_read rfl
  | audit => exact hsession.exists_perform_of_read rfl
  | range start count =>
      apply hsession.exists_perform_of_read
      rw [perform, htree.range_eq]
      rfl
  | entriesFrom start =>
      apply hsession.exists_perform_of_read
      rw [perform, htree.entriesFrom_eq]
      rfl
  | insertAll entries =>
      obtain ⟨outcome, u, hinsert, hchange⟩ := htree.exists_insertAll entries
      apply hsession.exists_perform_of_change hchange
      rw [perform, hinsert]
      rfl
  | removeAll keys =>
      obtain ⟨outcome, u, hremove, hchange⟩ := htree.exists_removeAll keys
      apply hsession.exists_perform_of_change hchange
      rw [perform, hremove]
      rfl
  | containsAll keys =>
      obtain ⟨tally, hcontains⟩ := htree.exists_containsAll keys
      apply hsession.exists_perform_of_read
      rw [perform, hcontains]
      rfl
  | openScan id start =>
      exact ⟨_, t, rfl,
        hsession.keepScan id (Scan.ready_start start session.tree.pages),
        .refl htree⟩
  | nextEntries id count => exact hsession.exists_nextEntries id count
  | closeScan id => exact ⟨_, t, rfl, hsession.closeScan id, .refl htree⟩

theorem exists_respondAll (hsession : session.Sound t)
    (requests : List (Request V)) :
    ∃ responses u, session.respondAll requests = .ok responses ∧
      (session.after responses).Sound u ∧
      Tree.Transition session.tree t (session.after responses).tree u
        (responses.flatMap (·.events)) := by
  induction requests generalizing session t with
  | nil => exact ⟨[], t, rfl, hsession, .refl hsession.tree⟩
  | cons request rest ih =>
      obtain ⟨response, u, hperform, hnext, hstep⟩ :=
        hsession.exists_perform request
      obtain ⟨responses, v, hrest, hlast, hsteps⟩ := ih hnext
      exact ⟨response :: responses, v, respondAll_cons hperform hrest, hlast,
        hstep.trans hsteps⟩

theorem exists_runThread (hsession : session.Sound t)
    (requests : List (Request V)) :
    ∃ last replies u, session.runThread requests = .ok (last, replies) ∧
      last.Sound u := by
  obtain ⟨responses, u, hrespond, hlast, _⟩ :=
    hsession.exists_respondAll requests
  refine ⟨_, responses.map (·.reply), u, ?_, hlast⟩
  rw [runThread_eq_respondAll, hrespond]
  rfl

end Sound

/-- What holds of a session between any two requests.  In particular a change
that is still to come replaces the root pointer only along a path that holds its
latch exclusively. -/
structure InOrder (session : Session V) : Prop where
  performs : ∀ request, ∃ response, session.perform request = .ok response
  audited : session.tree.audit = .ok ()
  sized : ∀ id page, session.tree.pages.page? id = some page →
    page.retired = false →
      session.tree.config.leastSize (decide (id = session.tree.root))
          page.node.kind ≤ page.node.size ∧
        page.node.size ≤ session.tree.config.capacity page.node.kind
  remembers : ∀ entry ∈ session.scans,
    entry.2.walk.Remembers session.tree.pages
  insertsAtRoot : ∀ path key value outcome,
    session.tree.insertAlong path key value = .ok outcome →
      outcome.tree.root ≠ session.tree.root → path.HoldsRoot
  removesAtRoot : ∀ path key outcome,
    session.tree.removeAlong path key = .ok outcome →
      outcome.tree.root ≠ session.tree.root → path.HoldsRoot

theorem Sound.inOrder {session : Session V} {t : Subtree V}
    (hsession : session.Sound t) : session.InOrder where
  performs := fun request => by
    obtain ⟨response, _, hperform, _, _⟩ := hsession.exists_perform request
    exact ⟨response, hperform⟩
  audited := hsession.tree.audit_eq_ok
  sized := fun _ _ hpage hlive => hsession.tree.sized_of_page? hpage hlive
  remembers := fun entry hentry => (hsession.ready entry hentry).remembers
  insertsAtRoot := fun _ _ _ _ => Tree.holdsRoot_of_insertAlong
  removesAtRoot := fun _ _ _ => Tree.holdsRoot_of_removeAlong

theorem sound_new {config : Config} (hvalid : config.Valid) :
    Session.Sound ⟨Tree.empty config, []⟩ (.leaf 0 ({} : Leaf V)) :=
  ⟨Tree.sound_empty hvalid, fun _ hentry => nomatch hentry⟩

/-- A session over a new tree performs any requests without a fault, and any
further request too, whatever scans are open.  So no split reaches a parent
whose latch was let go, each page to be repaired has a neighbour of its kind
under the same parent, which has enough entries to give one away, and each new
separator stands below the next one: to find it otherwise is a fault. -/
theorem performs_without_fault {config : Config}
    (hconfig : config.validate = .ok ()) (requests : List (Request V)) :
    ∃ session replies,
      Session.runThread ⟨Tree.empty config, []⟩ requests =
          .ok (session, replies) ∧
        session.InOrder := by
  have hvalid := Config.validate_eq_ok_iff.mp hconfig
  obtain ⟨session, replies, _, hrun, hsession⟩ :=
    (sound_new hvalid).exists_runThread requests
  exact ⟨session, replies, hrun, hsession.inOrder⟩

/-- A scan is left open in front of a leaf that is then merged away. -/
theorem performs_without_fault_with_parked_scan :
    ({ degree := 3 } : Config).validate = .ok () ∧
      ∃ session replies,
        Session.runThread ⟨Tree.empty { degree := 3 }, []⟩
            [.insert 1 'a', .insert 2 'b', .insert 3 'c', .insert 4 'd',
              .openScan 7 0, .nextEntries 7 1, .remove 1] =
          .ok (session, replies) ∧
        session.scans.map (fun e => e.2.walk.cursor) = [.leaf 1] ∧
        session.tree.pages.isRetired 1 = true ∧ session.InOrder := by
  have hconfig : ({ degree := 3 } : Config).validate = .ok () := rfl
  obtain ⟨session, replies, hrun, hinOrder⟩ := performs_without_fault hconfig
    [.insert 1 'a', .insert 2 'b', .insert 3 'c', .insert 4 'd', .openScan 7 0,
      .nextEntries 7 1, .remove 1]
  have hparked : (Session.runThread ⟨Tree.empty { degree := 3 }, []⟩
      [.insert 1 'a', .insert 2 'b', .insert 3 'c', .insert 4 'd',
        .openScan 7 0, .nextEntries 7 1, .remove 1]).map
        (fun run => (run.1.scans.map (fun e => e.2.walk.cursor),
          run.1.tree.pages.isRetired 1)) = .ok ([.leaf 1], true) := by
    decide +kernel
  rw [hrun, Except.map, Except.ok.injEq, Prod.mk.injEq] at hparked
  exact ⟨hconfig, session, replies, hrun, hparked.1, hparked.2, hinOrder⟩

end Session

end LatchTree
