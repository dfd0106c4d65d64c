import LatchTree.Proofs.Session.Safety
import LatchTree.Proofs.Tree.Footprint
import LatchTree.Proofs.Tree.LifeCycle

/-!
# Writes under held latches

An insertion or a removal writes only where it may: to pages whose latches it
still holds when it reaches the leaf, and to the sibling beside such a page if it
holds the latch of their parent too.  The links of the leaf chain are the only
exception.  They change at a leaf that is split or goes, and at its neighbours.
-/

namespace LatchTree

open Subtree Context

variable {V : Type}

def Change.key : Change V → Key
  | .insert key _ => key
  | .remove key => key

/-- What the descent of a change is for. -/
def Change.access : Change V → Access
  | .insert _ _ => .insert
  | .remove _ => .delete

namespace Tree

/-- The latch of the page is held, or the page stands beside one whose latch is
held together with that of their parent. -/
inductive UnderLatch (tree : Tree V) (path : LatchPath) (id : PageId) : Prop
  | held (slot : Nat) : .page id slot ∈ path.links → UnderLatch tree path id
  | beside (child parent : PageId) (slot upperSlot : Nat) (contents : Branch) :
      [.page child slot, .page parent upperSlot] <:+: path.links →
      tree.pages.branch parent = .ok contents →
      contents.child (contents.slotBeside slot) = .ok id →
      UnderLatch tree path id

/-- The page is a leaf that was split or went, or a neighbour of it. -/
inductive Relinked (tree next : Tree V) (id : PageId) : Prop
  | split (leaf : PageId) (contents : Leaf V) (pair : Siblings (Node V)) :
      tree.pages.liveNode? leaf = some (.leaf contents) →
      (Node.leaf contents).Halved tree.config pair →
      next.pages.liveNode? leaf = some pair.left →
      next.pages.liveNode? tree.pages.size = some pair.right →
      id = leaf ∨ tree.pages.next? leaf = some id → Relinked tree next id
  | merged (leaf : PageId) (contents : Leaf V) :
      tree.pages.liveNode? leaf = some (.leaf contents) →
      next.pages.isRetired leaf →
      id = leaf ∨ tree.pages.prev? leaf = some id ∨
        tree.pages.next? leaf = some id → Relinked tree next id

/-- What a change may have made of an old page. -/
structure Rewrites (tree next : Tree V) (path : LatchPath) (id : PageId)
    (old new : Page V) : Prop where
  node : new.node ≠ old.node → tree.UnderLatch path id
  retired : new.retired ≠ old.retired →
    new.retired = true ∧ tree.UnderLatch path id
  links : (new.prev, new.next) ≠ (old.prev, old.next) → tree.Relinked next id
  same : ¬ tree.UnderLatch path id → ¬ tree.Relinked next id → new = old

/-- The change writes only where the latches of the path allow it. -/
structure WritesUnder (tree next : Tree V) (path : LatchPath) : Prop where
  root : next.root ≠ tree.root → .root ∈ path.links
  pages : ∀ id old, tree.pages.page? id = some old →
    ∃ new, next.pages.page? id = some new ∧ tree.Rewrites next path id old new

theorem WritesUnder.refl (tree : Tree V) (path : LatchPath) :
    tree.WritesUnder tree path where
  root := fun hroot => absurd rfl hroot
  pages := fun _ old hold => ⟨old, hold, fun hnode => absurd rfl hnode,
    fun hretired => absurd rfl hretired, fun hlinks => absurd rfl hlinks,
    fun _ _ => rfl⟩

section Sound

variable {tree next : Tree V} {t u : Subtree V} {path : LatchPath}
  {events : List Event}

theorem page_eq_of_retired (hcontinues : tree.Continues next events)
    {id : PageId} {old new : Page V} (hold : tree.pages.page? id = some old)
    (hnew : next.pages.page? id = some new) (hretired : old.retired = true) :
    new = old := by
  obtain ⟨later, hlater, _, hsame⟩ := hcontinues.pages id old hold
  rw [hnew, Option.some.injEq] at hlater
  exact hlater.trans (hsame hretired)

/-- A page whose cell stays is neither written to nor retired. -/
theorem Sound.page_eq_of_keeps (hsound : tree.Sound t) (hnext : next.Sound u)
    (hcontinues : tree.Continues next events) {id : PageId} {old new : Page V}
    (hold : tree.pages.page? id = some old)
    (hnew : next.pages.page? id = some new)
    (hkeeps : ∀ node, (id, node) ∈ t.cells → (id, node) ∈ u.cells) :
    new.node = old.node ∧ new.retired = old.retired := by
  have hnode := hsound.node_eq_of_keeps hnext hcontinues
    (PageTable.lt_size_of_page? hold) hkeeps
  refine ⟨by simpa [PageTable.node, PageTable.page, hold, hnew, Except.map]
    using hnode, ?_⟩
  cases hmark : old.retired with
  | true =>
      rw [page_eq_of_retired hcontinues hold hnew hmark]
      exact hmark
  | false =>
      have hcell := hsound.stores.holds.mem_of_page? hold hmark
      obtain ⟨later, hlater, hlive, _⟩ :=
        hnext.stores.holds.page_eq (hkeeps _ hcell)
      rw [hnew, Option.some.injEq] at hlater
      rw [hlater]
      exact hlive

/-- It suffices to look at the cells and the links. -/
theorem Sound.writesUnder (hsound : tree.Sound t) (hnext : next.Sound u)
    (hcontinues : tree.Continues next events)
    (hroot : next.root ≠ tree.root → .root ∈ path.links)
    (hkeeps : ∀ id, ¬ tree.UnderLatch path id → ∀ node, (id, node) ∈ t.cells →
      (id, node) ∈ u.cells)
    (hlinks : ∀ id, id < tree.pages.size → ¬ tree.Relinked next id →
      next.pages.prev? id = tree.pages.prev? id ∧
        next.pages.next? id = tree.pages.next? id) :
    tree.WritesUnder next path := by
  refine ⟨hroot, fun id old hold => ?_⟩
  obtain ⟨new, hnew, _, _⟩ := hcontinues.pages id old hold
  have hstays : ¬ tree.UnderLatch path id →
      new.node = old.node ∧ new.retired = old.retired := fun hfree =>
    hsound.page_eq_of_keeps hnext hcontinues hold hnew (hkeeps id hfree)
  have hpointers : ¬ tree.Relinked next id →
      new.prev = old.prev ∧ new.next = old.next := by
    intro hfree
    have hsame := hlinks id (PageTable.lt_size_of_page? hold) hfree
    simpa [PageTable.prev?, PageTable.next?, hold, hnew] using hsame
  refine ⟨new, hnew, fun hchanged => ?_, fun hchanged => ⟨?_, ?_⟩,
    fun hchanged => ?_, fun hfree hunlinked => ?_⟩
  · by_contra hfree
    exact hchanged (hstays hfree).1
  · cases hmark : new.retired with
    | true => rfl
    | false =>
        have hwas : old.retired = true := by simpa [hmark] using hchanged
        rw [page_eq_of_retired hcontinues hold hnew hwas, hwas] at hmark
        cases hmark
  · by_contra hfree
    exact hchanged (hstays hfree).2
  · by_contra hfree
    obtain ⟨hprev, hnextLink⟩ := hpointers hfree
    exact hchanged (by rw [hprev, hnextLink])
  · obtain ⟨hprev, hnextLink⟩ := hpointers hunlinked
    obtain ⟨hnode, hretired⟩ := hstays hfree
    obtain ⟨oldNode, oldPrev, oldNext, oldRetired⟩ := old
    subst hnode hprev hnextLink hretired
    rfl

/-- All pages beside and above the gap are under held latches, as far as latches
are held. -/
theorem underLatch_of_mem_pagesUnder {config : Config} {height level : Nat}
    {context : Context V} {bounds : Bounds} {access : Access}
    {above : List Link} (hvalid : config.Valid)
    (hcontext : context.Fits config height level bounds)
    (hshows : tree.Shows (context.plug t))
    (hguards : Guards config access above context t)
    (hpath : .page t.page context.slot :: above <:+ path.links) {id : PageId}
    (hid : id ∈ context.pagesUnder above) : tree.UnderLatch path id := by
  induction hcontext generalizing t above with
  | root =>
      cases hguards <;> cases hid
  | @inner frame rest level bounds hrest haround hwidth hcapacity ih =>
      cases hguards with
      | safe hsafe => cases hid
      | @page upper _ _ _ hupper =>
          obtain ⟨pairing, hpair⟩ :=
            frame.exists_pairUp (hvalid.two_le_width hwidth) t
          have hpathAbove := (List.suffix_cons _ _).trans hpath
          rw [pagesUnder, Frame.beside?_pairUp hpair, Option.map_some,
            Option.toList_some, List.singleton_append, List.mem_cons,
            List.mem_cons] at hid
          rcases hid with rfl | rfl | hid
          · have hlinks : [.page t.page frame.left.length,
                .page frame.page rest.slot] <:+: path.links := by
              refine List.IsInfix.trans (List.IsPrefix.isInfix ?_) hpath.isInfix
              exact ⟨upper, rfl⟩
            exact .beside _ _ _ _ _ hlinks hshows.branch_plug
              (Frame.child_beside hpair)
          · exact .held rest.slot (hpathAbove.subset List.mem_cons_self)
          · exact ih hshows hupper hpathAbove hid

/-! ## The leaf chain -/

/-- A leaf that has left the chain is retired, and only its neighbours are linked
in another way. -/
theorem Sound.links_eq_of_merged (hsound : tree.Sound t)
    (hnext : next.Sound u) (hcontinues : tree.Continues next events)
    {before after : List PageId} {gone id : PageId}
    (hold : t.leafPages = before ++ gone :: after)
    (hnew : u.leafPages = before ++ after) (hfree : ¬ tree.Relinked next id) :
    next.pages.prev? id = tree.pages.prev? id ∧
      next.pages.next? id = tree.pages.next? id := by
  have hgone : gone ∈ t.leafPages := by
    rw [hold]
    exact List.mem_append_right _ List.mem_cons_self
  obtain ⟨contents, hcell⟩ := hsound.stores.leaves gone hgone
  have hlive := (hsound.stores.holds.live_iff _ _).mpr hcell
  obtain ⟨page, hpage, _, hnode⟩ := hsound.stores.holds.page_eq hcell
  obtain ⟨later, hlater, hkind, _⟩ := hcontinues.pages gone page hpage
  have hnodup := hsound.stores.chains.nodup
  rw [hold, List.nodup_middle, List.nodup_cons, ← hnew] at hnodup
  have hretired : next.pages.isRetired gone = true := by
    rw [PageTable.isRetired_of_page? hlater]
    by_contra hmark
    rw [Bool.not_eq_true] at hmark
    rw [hnode] at hkind
    exact hnodup.1 (hnext.mem_leafPages hlater hmark hkind)
  have hchain := hold ▸ hsound.stores.chains
  have hchainNext := hnew ▸ hnext.stores.chains
  apply hchain.links_eq_of_erase hchainNext
  · exact fun hsame => hfree (.merged gone contents hlive hretired (.inl hsame))
  · exact fun hprev =>
      hfree (.merged gone contents hlive hretired (.inr (.inl hprev)))
  · exact fun hnextLink =>
      hfree (.merged gone contents hlive hretired (.inr (.inr hnextLink)))

/-- A leaf that was split is followed by the new half, which goes before the old
successor. -/
theorem Sound.links_eq_of_split (hsound : tree.Sound t)
    (hnext : next.Sound u) {before after : List PageId} {leaf id : PageId}
    {contents : Leaf V} {pair : Siblings (Node V)}
    (hold : t.leafPages = before ++ leaf :: after)
    (hnew : u.leafPages = before ++ leaf :: tree.pages.size :: after)
    (hleaf : (leaf, .leaf contents) ∈ t.cells)
    (hhalved : (Node.leaf contents).Halved tree.config pair)
    (hleft : (leaf, pair.left) ∈ u.cells)
    (hright : (tree.pages.size, pair.right) ∈ u.cells)
    (hid : id < tree.pages.size) (hfree : ¬ tree.Relinked next id) :
    next.pages.prev? id = tree.pages.prev? id ∧
      next.pages.next? id = tree.pages.next? id := by
  have hlive := (hsound.stores.holds.live_iff _ _).mpr hleaf
  have hliveLeft := (hnext.stores.holds.live_iff _ _).mpr hleft
  have hliveRight := (hnext.stores.holds.live_iff _ _).mpr hright
  have hchain := hold ▸ hsound.stores.chains
  have hchainNext := hnew ▸ hnext.stores.chains
  have hnextLink : tree.pages.next? leaf = after.head? := hchain.next?_eq
  have hrelinked : ∀ {other}, other = leaf ∨ after.head? = some other →
      tree.Relinked next other := by
    intro other hother
    rw [← hnextLink] at hother
    exact .split leaf contents pair hlive hhalved hliveLeft hliveRight hother
  rw [List.append_cons] at hchain hchainNext
  -- Seen backward, the new half goes from the chain.
  have hsame := hchainNext.links_eq_of_erase hchain (Nat.ne_of_lt hid)
  rw [hchainNext.prev?_eq, hchainNext.next?_eq, List.getLast?_concat] at hsame
  obtain ⟨hprevSame, hnextSame⟩ := hsame
    (fun hlast => hfree (hrelinked (.inl (Option.some.inj hlast).symm)))
    (fun hhead => hfree (hrelinked (.inr hhead)))
  exact ⟨hprevSame.symm, hnextSame.symm⟩

end Sound

/-! ## Changes -/

section Leads

variable {tree : Tree V} {t : Subtree V} {key : Key} {context : Context V}
  {page : PageId} {contents : Leaf V} {bounds : Bounds}

/-- The latches that are held when an operation reaches its leaf. -/
def heldPath (tree : Tree V) (access : Access) (context : Context V)
    (page : PageId) (contents : Leaf V) : LatchPath :=
  ⟨access.mode, .page page context.slot ::
    context.held (.safe tree.config access) (.leaf page contents)⟩

theorem Sound.remove_writesUnder (hsound : tree.Sound t)
    (hleads : Leads tree.config tree.height t key context page contents bounds)
    {value : V} (hpresent : t.entries.lookup key = some value) :
    ∃ outcome,
      tree.removeAlong (tree.heldPath .delete context page contents) key =
        .ok outcome ∧
      tree.WritesUnder outcome.tree
        (tree.heldPath .delete context page contents) := by
  obtain ⟨settled, next, hsettled, hremove, hnext, hcontinues, _⟩ :=
    hsound.exists_removeAlong_present hleads hpresent
  have hget : contents.get? key = some value :=
    (hleads.get?_eq hsound.wellFormed.fits).trans hpresent
  have hguards := guards_held (ReleaseRule.cautious_safe tree.config .delete)
    context (.leaf page contents)
  have hfits := hleads.erase_fits
  have hshrunk := hleads.erase_shrunk hget
  have hsize : contents.entries.length ≤
      (contents.erase key).entries.length + 1 := by
    rw [Leaf.length_erase (hleads.fits.get?_eq_some_iff.mp hget)]
    omega
  have hshows := hsound.shows
  rw [hleads.plug] at hshows
  have hrun := hremove _ hguards
  refine ⟨_, hrun, hsound.writesUnder hnext hcontinues ?_ ?_ ?_⟩
  · exact fun hroot => (holdsRoot_of_removeAlong hrun hroot).root
  · intro id hfree node hcell
    have hpage : id ≠ page := by
      rintro rfl
      exact hfree (.held context.slot List.mem_cons_self)
    have haway : id ∉ context.pagesUnder
        (context.held (.safe tree.config .delete) (.leaf page contents)) :=
      fun hid => hfree (underLatch_of_mem_pagesUnder hsound.valid hleads.outer
        hshows hguards (List.suffix_refl _) hid)
    rw [hleads.plug] at hcell
    rw [hsettled]
    exact keeps_repairUp hsound.valid hleads.outer hguards hfits hshrunk rfl
      hsize (mem_cells_plug_leaf hcell hpage) hpage haway
  · intro id _ hfree
    have hleafPages := leafPages_repairUp hsound.valid hleads.outer hfits
      hshrunk
    rw [← hsettled, leafPages_plug_leaf, ← hleads.plug] at hleafPages
    rcases hleafPages with hsame | ⟨_, before, gone, after, hold, hnew⟩
    · exact hsound.stores.chains.links_eq (hsame ▸ hnext.stores.chains) id
    · exact hsound.links_eq_of_merged hnext hcontinues hold hnew hfree

/-- The pages that are split, and the branch that takes up the last upper half,
are held. -/
theorem underLatch_of_mem_fullRun {above : List Link} {path : LatchPath}
    (hguards : Guards tree.config .insert above context t)
    (hpath : .page t.page context.slot :: above <:+ path.links) {cell : Cell V}
    (hcell : cell ∈ (context.cellsUp t).take
      ((Cell.fullRun tree.config (context.cellsUp t)).length + 1)) :
    tree.UnderLatch path cell.1 := by
  induction context generalizing t above with
  | nil =>
      have hmem := List.mem_of_mem_take hcell
      rw [cellsUp, List.mem_singleton] at hmem
      rw [hmem]
      exact .held _ (hpath.subset List.mem_cons_self)
  | cons frame rest ih =>
      have hheld : tree.UnderLatch path t.page :=
        .held _ (hpath.subset List.mem_cons_self)
      rw [cellsUp] at hcell
      cases hfull : t.node.isFull tree.config with
      | false =>
          rw [Cell.fullRun_cons_of_not_full hfull] at hcell
          rw [List.mem_singleton.mp hcell]
          exact hheld
      | true =>
          rw [Cell.fullRun_cons_of_full hfull, List.length_cons,
            List.take_succ_cons, List.mem_cons] at hcell
          rcases hcell with rfl | hcell
          · exact hheld
          · cases hguards with
            | safe hsafe =>
                have hroom : t.node.size < tree.config.capacity t.node.kind := by
                  simpa [Node.isSafe] using hsafe
                have hsize := of_decide_eq_true hfull
                omega
            | page hupper =>
                exact ih hupper ((List.suffix_cons _ _).trans hpath) hcell

/-- An insertion that does not split the leaf leaves all links as they are. -/
theorem Sound.links_eq_of_insert (hsound : tree.Sound t)
    (hleads : Leads tree.config tree.height t key context page contents bounds)
    {value : V} {settled : Settled V} {next : Tree V}
    (hsettled : settled = context.splitUp tree.config tree.height
      tree.pages.size (.leaf page (contents.insert key value)))
    (hnext : next.Sound settled.tree) {id : PageId}
    (hid : id < tree.pages.size) (hfree : ¬ tree.Relinked next id) :
    next.pages.prev? id = tree.pages.prev? id ∧
      next.pages.next? id = tree.pages.next? id := by
  have hswollen := hleads.insert_swollen value
  have hgains : (Subtree.leaf page contents).node.Gains
      (Subtree.leaf page (contents.insert key value)).node :=
    Node.gains_insert contents key value
  have hpage : (Subtree.leaf page (contents.insert key value)).page =
      (Subtree.leaf page contents).page := rfl
  rcases Nat.lt_or_eq_of_le hswollen.2 with hlt | hsize
  · have hsame : settled.tree.leafPages = t.leafPages := by
      rw [hsettled, splitUp_of_size_le _ _ _ (Nat.le_of_lt_succ hlt),
        hleads.plug]
      exact context.leafPages_plug_leaf page contents _
    exact hsound.stores.chains.links_eq (hsame ▸ hnext.stores.chains) id
  · obtain ⟨pair, hoverflow, _⟩ :=
      exists_overflow hsound.valid hsize tree.pages.size
    obtain ⟨hhalved, hleft, hright⟩ := halved_of_overflow tree.height context
      hpage hgains hsize hoverflow
    have hold : t.leafPages = Cell.leafPagesIn context.cellsBefore ++
        page :: Cell.leafPagesIn context.cellsAfter := by
      rw [hleads.plug, leafPages_plug, leafPages_leaf, List.append_assoc]
      rfl
    have hnew := leafPages_splitUp_leaf tree.height context hoverflow
    rw [← hsettled] at hleft hright hnew
    exact hsound.links_eq_of_split hnext hold hnew hleads.mem_cells hhalved
      hleft hright hid hfree

theorem Sound.insert_writesUnder (hsound : tree.Sound t)
    (hleads : Leads tree.config tree.height t key context page contents bounds)
    (habsent : t.entries.lookup key = none) (value : V) :
    ∃ outcome,
      tree.insertAlong (tree.heldPath .insert context page contents) key value =
        .ok outcome ∧
      tree.WritesUnder outcome.tree
        (tree.heldPath .insert context page contents) := by
  obtain ⟨settled, next, hsettled, hinsert, hnext, hcontinues, _⟩ :=
    hsound.exists_insertAlong_absent hleads habsent value
  have hget : contents.get? key = none :=
    (hleads.get?_eq hsound.wellFormed.fits).trans habsent
  have hguards := guards_held (ReleaseRule.cautious_safe tree.config .insert)
    context (.leaf page contents)
  have hgains : (Subtree.leaf page contents).node.Gains
      (Subtree.leaf page (contents.insert key value)).node :=
    Node.gains_insert contents key value
  have hpageSame : (Subtree.leaf page (contents.insert key value)).page =
      (Subtree.leaf page contents).page := rfl
  obtain ⟨halves, hcascades⟩ := exists_cascades hsound.valid hleads.outer
    (hleads.insert_fits hget value) (hleads.insert_swollen value) hpageSame
    hgains tree.pages.size
  have hrun := hinsert _ hguards
  refine ⟨_, hrun, hsound.writesUnder hnext hcontinues ?_ ?_ ?_⟩
  · exact fun hroot => (holdsRoot_of_insertAlong hrun hroot).root
  · intro id hfree node hcell
    have hpage : id ≠ page := by
      rintro rfl
      exact hfree (.held context.slot List.mem_cons_self)
    rw [hleads.plug] at hcell
    rw [hsettled]
    refine hcascades.keeps (id, node) (mem_cells_plug_leaf hcell hpage) ?_
    rintro cell hmem rfl
    exact hfree (underLatch_of_mem_fullRun hguards (List.suffix_refl _) hmem)
  · exact fun id hid hfree =>
      hsound.links_eq_of_insert hleads hsettled hnext hid hfree

end Leads

theorem Sound.exists_change_writesUnder {tree : Tree V} {t : Subtree V}
    (hsound : tree.Sound t) (change : Change V) :
    ∃ path next,
      tree.descend change.key change.access = .ok path ∧
        tree.change change = .ok next ∧ tree.WritesUnder next path := by
  obtain ⟨context, page, contents, bounds, hleads, hdescend⟩ :=
    hsound.exists_descend change.key
  have hpath : tree.descend change.key change.access =
      .ok (tree.heldPath change.access context page contents) := by
    rw [descend_eq_descendBy, hdescend]
    rfl
  cases change with
  | insert key value =>
      cases hlookup : t.entries.lookup key with
      | some found =>
          have hpresent := hsound.insert_present
            (Option.isSome_iff_exists.mpr ⟨found, hlookup⟩) value
          exact ⟨_, tree, hpath, by rw [Tree.change, hpresent]; rfl, .refl _ _⟩
      | none =>
          obtain ⟨outcome, hinsert, hwrites⟩ :=
            hsound.insert_writesUnder hleads hlookup value
          refine ⟨_, outcome.tree, hpath, ?_, hwrites⟩
          rw [Change.key] at hinsert
          rw [Change.key, Change.access] at hpath
          rw [Tree.change, insert, hpath]
          simp only [bind, Except.bind, hinsert]
          rfl
  | remove key =>
      cases hlookup : t.entries.lookup key with
      | none =>
          have habsent := hsound.remove_absent hlookup
          exact ⟨_, tree, hpath, by rw [Tree.change, habsent]; rfl, .refl _ _⟩
      | some value =>
          obtain ⟨outcome, hremove, hwrites⟩ :=
            hsound.remove_writesUnder hleads hlookup
          refine ⟨_, outcome.tree, hpath, ?_, hwrites⟩
          rw [Change.key] at hremove
          rw [Change.key, Change.access] at hpath
          rw [Tree.change, remove, hpath]
          simp only [bind, Except.bind, hremove]
          rfl

/-- However high its splits or repairs climb, a change writes only to pages under
the latches that it holds at its leaf.  Of all other pages, only neighbours of a
leaf that is split or goes are linked in another way. -/
theorem writes_stay_under_latches {config : Config}
    (hconfig : config.validate = .ok ()) (history : List (Change V)) :
    ∃ tree, (Tree.empty config).changeAll history = .ok tree ∧
      ∀ change : Change V, ∃ path next,
        tree.descend change.key change.access = .ok path ∧
          tree.change change = .ok next ∧ tree.WritesUnder next path := by
  have hvalid := Config.validate_eq_ok_iff.mp hconfig
  obtain ⟨tree, t, hrun, hsound⟩ :=
    (sound_empty (V := V) hvalid).exists_changeAll history
  exact ⟨tree, hrun, hsound.exists_change_writesUnder⟩

/-- Merges climb from the last leaf to the root, which is replaced by the only
child that is left. -/
theorem writes_stay_under_latches_to_root :
    ({ degree := 3 } : Config).validate = .ok () ∧
      ∃ tree path next,
        (Tree.empty { degree := 3 }).changeAll
            (([1, 2, 3, 4, 5, 6, 7, 8, 9, 10] : List Key).map
              (.insert · 'a')) = .ok tree ∧
          tree.descend 10 .delete = .ok path ∧
          path.links = [.page 5 1, .page 6 1, .page 7 0, .root] ∧
          tree.change (.remove 10) = .ok next ∧ next.root ≠ tree.root ∧
          tree.WritesUnder next path := by
  have hconfig : ({ degree := 3 } : Config).validate = .ok () := rfl
  obtain ⟨tree, hrun, hchanges⟩ := writes_stay_under_latches hconfig
    (([1, 2, 3, 4, 5, 6, 7, 8, 9, 10] : List Key).map (.insert · 'a'))
  obtain ⟨path, next, hdescend, hchange, hwrites⟩ := hchanges (.remove 10)
  have hlinks : ((Tree.empty { degree := 3 }).changeAll
      (([1, 2, 3, 4, 5, 6, 7, 8, 9, 10] : List Key).map
        (.insert · 'a'))).bind
          (fun tree => (tree.descend 10 .delete).map (·.links)) =
      .ok [.page 5 1, .page 6 1, .page 7 0, .root] := by
    decide +kernel
  have hroots : ((Tree.empty { degree := 3 }).changeAll
      (([1, 2, 3, 4, 5, 6, 7, 8, 9, 10] : List Key).map
        (.insert · 'a'))).bind (fun tree =>
          (tree.change (.remove 10)).map fun next => (tree.root, next.root)) =
      .ok (7, 2) := by
    decide +kernel
  rw [Change.key, Change.access] at hdescend
  rw [hrun, Except.bind, hdescend, Except.map, Except.ok.injEq] at hlinks
  rw [hrun, Except.bind, hchange, Except.map, Except.ok.injEq,
    Prod.mk.injEq] at hroots
  have hroot : next.root ≠ tree.root := by
    rw [hroots.1, hroots.2]
    decide
  exact ⟨hconfig, tree, path, next, hrun, hdescend, hlinks, hchange, hroot,
    hwrites⟩

end Tree

end LatchTree
