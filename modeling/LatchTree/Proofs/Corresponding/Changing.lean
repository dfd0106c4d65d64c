import LatchTree.Tree.Bulk
import LatchTree.Proofs.Corresponding.Reading

/-!
# Changing corresponding trees

Insertions into corresponding trees and removals from corresponding trees, of a
key and its image, split, merge and borrow in the same places and leave
corresponding trees.  Wherever a page lends an entry to its right neighbour, the
two were too large to be merged, so the lender has more than one entry.
-/

namespace LatchTree

variable {V : Type} {g : KeyMap}

/-- The event with its separator mapped. -/
def Event.mapKeys (g : KeyMap) : Event → Event
  | .pageSplit kind size separator => .pageSplit kind size (g separator)
  | .rootSplit height separator => .rootSplit height (g separator)
  | event => event

theorem Event.mapKeys_identity (event : Event) :
    event.mapKeys .identity = event := by
  cases event <;> rfl

structure Outcome.Corresponds {α : Type} (g : KeyMap) (R : α → α → Prop)
    (first second : Outcome V α) : Prop where
  result : R first.result second.result
  tree : first.tree.Corresponds g second.tree
  events : second.events = first.events.map (Event.mapKeys g)

theorem Outcome.Corresponds.tally {α : Type}
    {one another : Outcome V (Except TreeError α)}
    {later others : Outcome V Tally}
    (hone : one.Corresponds g (MapsResult g) another)
    (hlater : later.Corresponds g Eq others) :
    Outcome.Corresponds g Eq
      ⟨later.result.count one.result.isOk, later.tree,
        one.events ++ later.events⟩
      ⟨others.result.count another.result.isOk, others.tree,
        another.events ++ others.events⟩ where
  result := by
    rw [hlater.result, hone.result.isOk_eq]
  tree := hlater.tree
  events := by
    rw [hone.events, hlater.events, List.map_append]

/-- Corresponding trees with lists of corresponding events. -/
structure Tree.CorrespondsWith (g : KeyMap) (first second : Tree V × List Event) :
    Prop where
  tree : first.1.Corresponds g second.1
  events : second.2 = first.2.map (Event.mapKeys g)

namespace Tree.Corresponds

variable {first second : Tree V}

theorem setNode (htree : first.Corresponds g second) (page : PageId)
    {left right : Node V} (hnode : left.Corresponds g right) :
    (first.setNode page left).Corresponds g (second.setNode page right) where
  valid := htree.valid
  config := htree.config
  pages := htree.pages.setNode page hnode
  root := htree.root
  height := htree.height
  stats := htree.stats

theorem recount (htree : first.Corresponds g second) (f : Stats → Stats) :
    Tree.Corresponds g { first with stats := f first.stats }
      { second with stats := f second.stats } where
  valid := htree.valid
  config := htree.config
  pages := htree.pages
  root := htree.root
  height := htree.height
  stats := congrArg f htree.stats

theorem retire (htree : first.Corresponds g second) (page : PageId)
    (kind : PageKind) :
    (first.retire page kind).Corresponds g (second.retire page kind) where
  valid := htree.valid
  config := htree.config
  pages := by
    cases kind with
    | leaf => exact (htree.pages.unlink page).markRetired page
    | branch => exact htree.pages.markRetired page
  root := htree.root
  height := htree.height
  stats := congrArg Stats.countRetired htree.stats

/-! ## Insertions -/

theorem splitPage (htree : first.Corresponds g second) (page : PageId) :
    Follows
      (fun a b => a.1.Corresponds g b.1 ∧ g.MapsEntry a.2.1 b.2.1 ∧
        b.2.2 = a.2.2.mapKeys g)
      (first.splitPage page) (second.splitPage page) := by
  unfold Tree.splitPage
  refine (htree.pages.node page).bind fun left right hnode => ?_
  refine hnode.split.bind fun halves others hhalves => .ok ?_
  have halloc := htree.pages.alloc hhalves.right
  have hkind := hnode.kind_eq
  have hsize := htree.pages.size_eq
  constructor
  · rw [hkind, hsize, htree.stats]
    refine ⟨htree.valid, htree.config, ?_, htree.root, htree.height, rfl⟩
    cases right.kind with
    | leaf => exact (halloc.linkAfter page _).setNode page hhalves.left
    | branch => exact halloc.setNode page hhalves.left
  · constructor
    · exact ⟨hhalves.separator, hsize⟩
    · rw [hkind, hhalves.left.size_eq, hhalves.separator.image]
      rfl

theorem growRoot (htree : first.Corresponds g second)
    {entry other : Key × PageId} (hentry : g.MapsEntry entry other) :
    (first.growRoot entry).1.Corresponds g (second.growRoot other).1 ∧
      (second.growRoot other).2 = (first.growRoot entry).2.mapKeys g := by
  unfold Tree.growRoot
  rw [htree.root, htree.height, htree.pages.size_eq, htree.stats]
  constructor
  · have hroot : Branch.Corresponds g ⟨[(0, second.root), entry]⟩
        ⟨[(0, second.root), other]⟩ :=
      .rekeyed 0 0 second.root (.cons hentry .nil)
    exact ⟨htree.valid, htree.config, htree.pages.alloc (.branch hroot), rfl, rfl,
      rfl⟩
  · rw [hentry.key.image]
    rfl

/-- Either both pages are split, and then the runs go on above them, or both
trees stay as they are. -/
theorem splitWith (htree : first.Corresponds g second) (page : PageId)
    {rise otherRise :
      Tree V × (Key × PageId) × Event → Except Fault (Tree V × List Event)}
    (hrise : ∀ {tree other : Tree V} {entry otherEntry : Key × PageId}
      (event : Event), tree.Corresponds g other →
        g.MapsEntry entry otherEntry →
          Follows (CorrespondsWith g) (rise (tree, entry, event))
            (otherRise (other, otherEntry, event.mapKeys g))) :
    Follows (CorrespondsWith g)
      (do
        let node ← first.pages.node page
        if node.isOverfull first.config then first.splitPage page >>= rise
        else return (first, []))
      (do
        let node ← second.pages.node page
        if node.isOverfull second.config then
          second.splitPage page >>= otherRise
        else return (second, [])) := by
  refine (htree.pages.node page).bind fun left right hnode => ?_
  rw [htree.config, hnode.isOverfull_eq]
  split
  · refine (htree.splitPage page).bind ?_
    rintro ⟨tree, entry, event⟩ ⟨other, otherEntry, _⟩ ⟨hsplit, hentry, rfl⟩
    exact hrise event hsplit hentry
  · exact .ok ⟨htree, rfl⟩

theorem splitOverfull (htree : first.Corresponds g second) (page : PageId)
    (slot : Nat) (above : List Link) :
    Follows (CorrespondsWith g) (first.splitOverfull page slot above)
      (second.splitOverfull page slot above) := by
  induction above generalizing first second page slot with
  | nil =>
      rw [Tree.splitOverfull, Tree.splitOverfull]
      exact htree.splitWith page fun _ _ _ => .error _ _
  | cons link rest ih =>
      cases link with
      | root =>
          rw [Tree.splitOverfull, Tree.splitOverfull]
          refine htree.splitWith page fun event hsplit hentry => ?_
          obtain ⟨hgrown, hevent⟩ := hsplit.growRoot hentry
          exact .ok ⟨hgrown,
            congrArg (fun grown => [event.mapKeys g, grown]) hevent⟩
      | page parent parentSlot =>
          rw [Tree.splitOverfull, Tree.splitOverfull]
          refine htree.splitWith page fun event hsplit hentry => ?_
          refine (hsplit.pages.branch parent).bind fun _ _ hbranch => ?_
          refine (hbranch.insertAfter slot hentry).bind fun _ _ hgrown => ?_
          have hparent := hsplit.setNode parent (.branch hgrown)
          refine (ih hparent parent parentSlot).bind ?_
          rintro ⟨last, events⟩ ⟨otherLast, _⟩ ⟨hlast, rfl⟩
          exact .ok ⟨hlast, rfl⟩

section Insert

variable {key other : Key}

theorem insertAlong (htree : first.Corresponds g second) (path : LatchPath)
    (hkey : g.Maps key other) (value : V) :
    Follows (Outcome.Corresponds g (MapsResult g))
      (first.insertAlong path key value)
      (second.insertAlong path other value) := by
  unfold Tree.insertAlong
  refine .bind_same _ fun target _ => ?_
  obtain ⟨page, slot, above⟩ := target
  refine (htree.pages.leaf page).bind fun leaf otherLeaf hleaf => ?_
  rw [hleaf.get?_eq hkey]
  split
  · exact .ok ⟨by rw [hkey.image]; rfl, htree, rfl⟩
  · have hnode := Node.Corresponds.leaf (hleaf.insert hkey value)
    refine ((htree.setNode page hnode).splitOverfull page slot above).bind ?_
    rintro ⟨tree, events⟩ ⟨otherTree, _⟩ ⟨hsplit, rfl⟩
    exact .ok ⟨rfl, hsplit, rfl⟩

theorem insert (htree : first.Corresponds g second) (hkey : g.Maps key other)
    (value : V) :
    Follows (Outcome.Corresponds g (MapsResult g)) (first.insert key value)
      (second.insert other value) := by
  unfold Tree.insert
  refine (htree.descend hkey .insert).bind ?_
  rintro path _ rfl
  exact htree.insertAlong path hkey value

theorem insertAll (htree : first.Corresponds g second)
    {entries others : List (Key × V)}
    (hentries : List.Forall₂ g.MapsEntry entries others) :
    Follows (Outcome.Corresponds g Eq) (first.insertAll entries)
      (second.insertAll others) := by
  induction hentries generalizing first second with
  | nil => exact .ok ⟨rfl, htree, rfl⟩
  | @cons e f rest more hentry _ ih =>
      obtain ⟨key, value⟩ := e
      obtain ⟨other, _⟩ := f
      obtain ⟨hkey, rfl⟩ := hentry
      rw [Tree.insertAll, Tree.insertAll]
      refine (htree.insert hkey value).bind fun one another hone => ?_
      exact (ih hone.tree).bind fun later others hlater =>
        .ok (hone.tally hlater)

end Insert

end Tree.Corresponds

/-! ## Removals -/

theorem Branch.of_neighbours {branch : Branch} {page : PageId} {slot : Nat}
    {direction : Direction} {pages : Neighbours}
    (hneighbours : branch.neighbours page slot = .ok (direction, pages)) :
    (∃ before, pages.slot = before + 1) ∧
      (direction = .left → pages.right = page) := by
  unfold neighbours at hneighbours
  by_cases hlone : branch.entries.length < 2
  · rw [if_pos hlone] at hneighbours
    cases hneighbours
  rw [if_neg hlone] at hneighbours
  by_cases hnext : slot + 1 < branch.entries.length
  · rw [if_pos hnext] at hneighbours
    obtain ⟨next, _, hresult⟩ := exists_of_bind_eq_ok hneighbours
    cases hresult
    exact ⟨⟨slot, rfl⟩, fun hleft => nomatch hleft⟩
  · rw [if_neg hnext] at hneighbours
    obtain ⟨prev, _, hresult⟩ := exists_of_bind_eq_ok hneighbours
    cases hresult
    exact ⟨⟨slot - 1, by simp only; omega⟩, fun _ => rfl⟩

/-- A page that lends to an underfull page on its right has two entries, since
together they were too large for one page. -/
theorem Config.Valid.two_le_lender {config : Config} (hvalid : config.Valid)
    {left right : Node V} (hunder : right.isUnderfull config)
    (hfull : ¬ left.size + right.size ≤ config.capacity left.kind) :
    2 ≤ left.size := by
  have hdegree : 3 ≤ config.degree := hvalid
  have hlack : right.size < config.minSize right.kind := by
    simpa [Node.isUnderfull] using hunder
  cases hleft : left.kind <;> cases hright : right.kind <;>
    simp only [hleft, hright, Config.minSize, Config.capacity] at hlack hfull <;>
    omega

theorem Tree.node_of_pairAt {tree : Tree V} {branch : Branch}
    {pages : Neighbours} {pair : Siblings (Node V)}
    (hpair : tree.pairAt branch pages = .ok pair) :
    tree.pages.node pages.right = .ok pair.right := by
  obtain ⟨_, _, hpair⟩ := exists_of_bind_eq_ok hpair
  obtain ⟨_, _, hpair⟩ := exists_of_bind_eq_ok hpair
  obtain ⟨right, hright, hpair⟩ := exists_of_bind_eq_ok hpair
  cases hpair
  exact hright

/-- Corresponding trees with corresponding events.  The pages that were noted do
not matter. -/
def Tree.CorrespondsNoting (g : KeyMap)
    (first second : Tree V × List Event × List PageId) : Prop :=
  CorrespondsWith g (first.1, first.2.1) (second.1, second.2.1)

namespace Tree.Corresponds

variable {first second : Tree V}

section Pair

variable {branch other : Branch} {pages : Neighbours}
  {pair others : Siblings (Node V)}

theorem pairAt (htree : first.Corresponds g second)
    (hbranch : branch.Corresponds g other) {before : Nat}
    (hslot : pages.slot = before + 1) :
    Follows (Siblings.Corresponds g (Node.Corresponds g))
      (first.pairAt branch pages) (second.pairAt other pages) := by
  unfold Tree.pairAt
  rw [hslot]
  refine (hbranch.entry_succ before).bind fun _ _ hentry => ?_
  refine (htree.pages.node pages.left).bind fun _ _ hleft => ?_
  exact (htree.pages.node pages.right).bind fun _ _ hright =>
    .ok ⟨hleft, hentry.key, hright⟩

theorem mergePair (htree : first.Corresponds g second) (parent : PageId)
    (hbranch : branch.Corresponds g other) (pages : Neighbours)
    (hpair : pair.Corresponds g (Node.Corresponds g) others) :
    Follows (fun a b => a.1.Corresponds g b.1)
      (first.mergePair parent branch pages pair)
      (second.mergePair parent other pages others) := by
  unfold Tree.mergePair
  rw [hpair.left.kind_eq]
  refine (Node.Corresponds.merge hpair).bind fun _ _ hmerged => ?_
  have hleft := htree.setNode pages.left hmerged.1
  have hright := hleft.setNode pages.right hmerged.2
  have hparent := hright.setNode parent (.branch (hbranch.eraseSlot pages.slot))
  exact .ok ((hparent.retire pages.right _).recount (·.countMerge _))

theorem borrowInPair (htree : first.Corresponds g second) {donor : Direction}
    (parent : PageId) (hbranch : branch.Corresponds g other) (pages : Neighbours)
    (hpair : pair.Corresponds g (Node.Corresponds g) others)
    (hlender : donor = .left → 2 ≤ pair.left.size) :
    Follows (Corresponds g) (first.borrowInPair donor parent branch pages pair)
      (second.borrowInPair donor parent other pages others) := by
  unfold Tree.borrowInPair
  refine (Node.Corresponds.borrow hpair hlender).bind
    fun shifted others hshifted => ?_
  have hleft := htree.setNode pages.left hshifted.left
  have hright := hleft.setNode pages.right hshifted.right
  have hparent := hright.setNode parent
    (.branch (hbranch.setKey pages.slot hshifted.separator))
  exact .ok (hparent.recount Stats.countBorrow)

end Pair

/-- A repair reports no keys. -/
theorem repair (htree : first.Corresponds g second) {page : PageId}
    {node : Node V} (hnode : first.pages.node page = .ok node)
    (hunder : node.isUnderfull first.config) (slot : Nat) (parent : PageId) :
    Follows
      (fun a b => a.1.Corresponds g b.1 ∧ a.2.1 = b.2.1 ∧
        b.2.2.1 = a.2.2.1.mapKeys g)
      (first.repair page slot parent) (second.repair page slot parent) := by
  unfold Tree.repair
  refine (htree.pages.branch parent).bind fun branch other hbranch => ?_
  rw [hbranch.neighbours_eq, hbranch.length_eq, ← htree.config]
  refine .bind_same _ ?_
  rintro ⟨direction, pages⟩ hneighbours
  obtain ⟨⟨before, hslot⟩, hneedy⟩ := Branch.of_neighbours hneighbours
  refine (htree.pairAt hbranch hslot).bind_of_ok fun pair others hat hpair => ?_
  simp only [← hpair.left.kind_eq, ← hpair.left.size_eq, ← hpair.right.size_eq]
  split
  · refine (htree.mergePair parent hbranch pages hpair).bind ?_
    exact fun _ _ hmerged => .ok ⟨hmerged, rfl, rfl⟩
  · rename_i hfull
    have hlender : direction = .left → 2 ≤ pair.left.size := by
      intro hleft
      have hright := node_of_pairAt hat
      rw [hneedy hleft, hnode] at hright
      cases hright
      exact htree.valid.two_le_lender hunder hfull
    refine (htree.borrowInPair parent hbranch pages hpair hlender).bind ?_
    exact fun _ _ hborrowed => .ok ⟨hborrowed, rfl, rfl⟩

theorem collapseRoot (htree : first.Corresponds g second) (page : PageId) :
    Follows (CorrespondsNoting g) (first.collapseRoot page)
      (second.collapseRoot page) := by
  unfold Tree.collapseRoot
  refine (htree.pages.node page).bind fun left right hnode => ?_
  cases hnode with
  | leaf hleaf => exact .ok ⟨htree, rfl⟩
  | branch hbranch =>
      cases hbranch with
      | empty => exact .ok ⟨htree, rfl⟩
      | rekeyed key other child hrest =>
          cases hrest with
          | cons hnext hlater => exact .ok ⟨htree, rfl⟩
          | nil =>
              rw [htree.height]
              have hroot : Tree.Corresponds g
                  { first with
                    root := child
                    height := second.height - 1
                    stats := first.stats.countRootCollapse }
                  { second with
                    root := child
                    height := second.height - 1
                    stats := second.stats.countRootCollapse } :=
                ⟨htree.valid, htree.config, htree.pages, rfl, rfl,
                  congrArg Stats.countRootCollapse htree.stats⟩
              exact .ok ⟨hroot.retire page .branch, rfl⟩

theorem repairUnderfull (htree : first.Corresponds g second) (page : PageId)
    (slot : Nat) (above : List Link) :
    Follows (CorrespondsNoting g) (first.repairUnderfull page slot above)
      (second.repairUnderfull page slot above) := by
  induction above generalizing first second page slot with
  | nil => exact .ok ⟨htree, rfl⟩
  | cons link rest ih =>
      cases link with
      | root => exact htree.collapseRoot page
      | page parent parentSlot =>
          rw [Tree.repairUnderfull, Tree.repairUnderfull]
          refine (htree.pages.node page).bind_of_ok
            fun left right hleft hnode => ?_
          rw [← htree.config, ← hnode.isUnderfull_eq]
          split
          · rename_i hunder
            refine (htree.repair hleft hunder slot parent).bind ?_
            rintro ⟨tree, action, event, noted⟩ ⟨other, _, _, _⟩
              ⟨hrepaired, rfl, rfl⟩
            cases action with
            | borrow => exact .ok ⟨hrepaired, rfl⟩
            | merge =>
                refine (ih hrepaired parent parentSlot).bind ?_
                rintro ⟨last, events, later⟩ ⟨otherLast, _, _⟩ ⟨hlast, rfl⟩
                exact .ok ⟨hlast, rfl⟩
          · exact .ok ⟨htree, rfl⟩

section Remove

variable {key other : Key}

theorem removeAlongNoted (htree : first.Corresponds g second)
    (path : LatchPath) (hkey : g.Maps key other) :
    Follows (fun a b => Outcome.Corresponds g (MapsResult g) a.1 b.1)
      (first.removeAlongNoted path key)
      (second.removeAlongNoted path other) := by
  unfold Tree.removeAlongNoted
  refine .bind_same _ fun target _ => ?_
  obtain ⟨page, slot, above⟩ := target
  refine (htree.pages.leaf page).bind fun leaf otherLeaf hleaf => ?_
  simp only [hleaf.get?_eq hkey]
  cases otherLeaf.get? other with
  | none => exact .ok ⟨by rw [hkey.image]; rfl, htree, rfl⟩
  | some value =>
      have hnode := Node.Corresponds.leaf (hleaf.erase hkey)
      refine ((htree.setNode page hnode).repairUnderfull page slot above).bind ?_
      rintro ⟨tree, events, noted⟩ ⟨otherTree, _, _⟩ ⟨hrepaired, rfl⟩
      exact .ok ⟨rfl, hrepaired, rfl⟩

theorem removeAlong (htree : first.Corresponds g second) (path : LatchPath)
    (hkey : g.Maps key other) :
    Follows (Outcome.Corresponds g (MapsResult g)) (first.removeAlong path key)
      (second.removeAlong path other) :=
  (htree.removeAlongNoted path hkey).bind fun _ _ houtcome => .ok houtcome

theorem remove (htree : first.Corresponds g second) (hkey : g.Maps key other) :
    Follows (Outcome.Corresponds g (MapsResult g)) (first.remove key)
      (second.remove other) := by
  unfold Tree.remove
  refine (htree.descend hkey .delete).bind ?_
  rintro path _ rfl
  exact htree.removeAlong path hkey

theorem removeAll (htree : first.Corresponds g second) {keys others : List Key}
    (hkeys : List.Forall₂ g.Maps keys others) :
    Follows (Outcome.Corresponds g Eq) (first.removeAll keys)
      (second.removeAll others) := by
  induction hkeys generalizing first second with
  | nil => exact .ok ⟨rfl, htree, rfl⟩
  | cons hkey _ ih =>
      rw [Tree.removeAll, Tree.removeAll]
      refine (htree.remove hkey).bind fun one another hone => ?_
      exact (ih hone.tree).bind fun later others hlater =>
        .ok (hone.tally hlater)

end Remove

end Tree.Corresponds

end LatchTree
