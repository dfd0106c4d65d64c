import LatchTree.Tree.Insert
import LatchTree.Tree.Remove
import LatchTree.Proofs.Page.LeafChain
import LatchTree.Proofs.Subtree.RepairUp

/-!
# What a tree stores

A tree stores cells and a chain of leaves if its page table holds the cells, the
links run through the leaves and the counter of live pages counts the
cells.  The single steps of splits and repairs change what a tree stores in the
way in which the same steps change subtrees.
-/

namespace LatchTree

open Subtree

variable {V : Type}

namespace Stats

/-- The counters after a change that was reported by an event. -/
def record (stats : Stats) : Event → Stats
  | .created _ => stats
  | .pageSplit kind _ _ => stats.countAllocated.countSplit kind
  | .rootSplit _ _ => stats.countAllocated.countRootSplit
  | .rebalanced kind _ .merge _ => stats.countRetired.countMerge kind
  | .rebalanced _ _ .borrow _ => stats.countBorrow
  | .rootCollapsed _ => stats.countRootCollapse.countRetired
  | .statsReport _ => stats

end Stats

namespace Tree

/-- The tree stores the cells, and its leaf chain runs through the pages. -/
structure Stores (tree : Tree V) (cells : List (Cell V))
    (leafPages : List PageId) : Prop where
  holds : tree.pages.Holds cells
  chains : tree.pages.Chains leafPages
  leaves : ∀ id ∈ leafPages, ∃ contents, (id, .leaf contents) ∈ cells
  livePages : tree.stats.livePages = cells.length

/-- The tree stores a subtree under its root. -/
structure Holds (tree : Tree V) (t : Subtree V) : Prop where
  root : tree.root = t.page
  stores : tree.Stores t.cells t.leafPages

/-- What remains of a tree over any change: its parameters, and what its page
table keeps for good.  The counters follow the events of the change. -/
structure Continues (old new : Tree V) (events : List Event) : Prop where
  config : new.config = old.config
  stats : new.stats = events.foldl Stats.record old.stats
  pages : old.pages.Evolves new.pages

namespace Continues

theorem refl (tree : Tree V) : tree.Continues tree [] :=
  ⟨rfl, rfl, .refl tree.pages⟩

theorem trans {first second third : Tree V} {events later : List Event}
    (hfirst : first.Continues second events)
    (hsecond : second.Continues third later) :
    first.Continues third (events ++ later) where
  config := hsecond.config.trans hfirst.config
  stats := by rw [List.foldl_append, ← hfirst.stats, hsecond.stats]
  pages := hfirst.pages.trans hsecond.pages

end Continues

namespace Stores

variable {tree : Tree V} {cells : List (Cell V)} {leafPages : List PageId}

theorem perm (hstores : tree.Stores cells leafPages) {others : List (Cell V)}
    (hperm : cells.Perm others) : tree.Stores others leafPages where
  holds := hstores.holds.perm hperm
  chains := hstores.chains
  leaves := fun id hid => by
    obtain ⟨contents, hmem⟩ := hstores.leaves id hid
    exact ⟨contents, hperm.mem_iff.mp hmem⟩
  livePages := hstores.livePages.trans hperm.length_eq

theorem of_pages {other : Tree V} (hstores : tree.Stores cells leafPages)
    (hpages : other.pages = tree.pages)
    (hlive : other.stats.livePages = tree.stats.livePages) :
    other.Stores cells leafPages where
  holds := hpages ▸ hstores.holds
  chains := hpages ▸ hstores.chains
  leaves := hstores.leaves
  livePages := hlive.trans hstores.livePages

/-- A tree is stored if a branch and what lies between its other children is,
together with all that lies outside. -/
theorem fill_iff {frame : Frame V} {rest : Context V}
    {middle : List (Key × Subtree V)} :
    tree.Stores (rest.plug (frame.fill middle)).cells
        (rest.plug (frame.fill middle)).leafPages ↔
      tree.Stores
        ((frame.page,
          .branch ⟨slots frame.left ++ slots middle ++ slots frame.right⟩) ::
          (cellsOf middle ++ Context.cellsOutside frame rest))
        (Cell.leafPagesIn (Context.cellsBefore (frame :: rest)) ++
          Cell.leafPagesIn (cellsOf middle) ++
          Cell.leafPagesIn (Context.cellsAfter (frame :: rest))) := by
  have hperm := Context.cells_fill_perm frame rest middle
  rw [Context.leafPages_fill]
  exact ⟨fun hstores => hstores.perm hperm,
    fun hstores => hstores.perm hperm.symm⟩

theorem live_leaf (hstores : tree.Stores cells leafPages) {id : PageId}
    (hid : id ∈ leafPages) : (tree.pages.liveNode? id).isSome := by
  obtain ⟨contents, hmem⟩ := hstores.leaves id hid
  rw [(hstores.holds.live_iff id _).mpr hmem]
  rfl

theorem leaf_lt (hstores : tree.Stores cells leafPages) {id : PageId}
    (hid : id ∈ leafPages) : id < tree.pages.size := by
  obtain ⟨contents, hmem⟩ := hstores.leaves id hid
  exact hstores.holds.lt_size hmem

/-- The node of one page changes, but not its kind. -/
theorem setNode {left right : List (Cell V)} {id : PageId} {old : Node V}
    (hstores : tree.Stores (left ++ (id, old) :: right) leafPages)
    (new : Node V) (hkind : new.kind = old.kind) :
    (tree.setNode id new).Stores (left ++ (id, new) :: right) leafPages ∧
      tree.Continues (tree.setNode id new) [] := by
  have hholds := hstores.holds.perm List.perm_middle
  refine ⟨⟨?_, ?_, ?_, ?_⟩, ⟨rfl, rfl, ?_⟩⟩
  · exact (hholds.setNode new).perm List.perm_middle.symm
  · exact hstores.chains.of_links
      (fun other => PageTable.prev?_setNode tree.pages id new other)
      (fun other => PageTable.next?_setNode tree.pages id new other)
  · intro other hother
    obtain ⟨contents, hmem⟩ := hstores.leaves other hother
    simp only [List.mem_append, List.mem_cons, Prod.mk.injEq] at hmem ⊢
    rcases hmem with hmem | ⟨rfl, rfl⟩ | hmem
    · exact ⟨contents, .inl hmem⟩
    · cases new with
      | leaf contents => exact ⟨contents, .inr (.inl ⟨rfl, rfl⟩)⟩
      | branch contents => cases hkind
    · exact ⟨contents, .inr (.inr hmem)⟩
  · have hlive := hstores.livePages
    rw [List.length_append, List.length_cons] at hlive ⊢
    exact hlive
  · exact .setNode ((hholds.live_iff id old).mpr List.mem_cons_self) hkind

theorem retire_branch {id : PageId} {contents : Branch}
    (hstores : tree.Stores ((id, .branch contents) :: cells) leafPages) :
    (tree.retire id .branch).Stores cells leafPages ∧
      tree.pages.Evolves (tree.retire id .branch).pages := by
  refine ⟨⟨hstores.holds.markRetired, ?_, ?_, ?_⟩, ?_⟩
  · exact hstores.chains.of_links
      (fun other => PageTable.prev?_markRetired tree.pages id other)
      (fun other => PageTable.next?_markRetired tree.pages id other)
  · intro other hother
    obtain ⟨leaf, hmem⟩ := hstores.leaves other hother
    rcases List.mem_cons.mp hmem with heq | hmem
    · cases heq
    · exact ⟨leaf, hmem⟩
  · have hlive := hstores.livePages
    rw [List.length_cons] at hlive
    simp [Tree.retire, Stats.countRetired, hlive]
  · exact .markRetired ((hstores.holds.live_iff id _).mpr List.mem_cons_self)

theorem retire_leaf {before after : List PageId} {id : PageId}
    {contents : Leaf V}
    (hstores : tree.Stores ((id, .leaf contents) :: cells)
      (before ++ id :: after)) :
    (tree.retire id .leaf).Stores cells (before ++ after) ∧
      tree.pages.Evolves (tree.retire id .leaf).pages := by
  have hholds : (tree.pages.unlink id).Holds ((id, .leaf contents) :: cells) :=
    hstores.holds.of_liveNode? (PageTable.liveNode?_unlink tree.pages id)
  have hchain := hstores.chains.unlink fun other hother =>
    hstores.leaf_lt hother
  have hid := hstores.live_leaf
    (List.mem_append_right before List.mem_cons_self)
  refine ⟨⟨hholds.markRetired, ?_, ?_, ?_⟩, ?_⟩
  · exact hchain.of_links (fun other => PageTable.prev?_markRetired _ id other)
      (fun other => PageTable.next?_markRetired _ id other)
  · intro other hother
    have hne : other ≠ id := by
      have hnodup := hstores.chains.nodup
      rw [List.nodup_middle, List.nodup_cons] at hnodup
      exact fun heq => hnodup.1 (heq ▸ hother)
    have hbefore : other ∈ before ++ id :: after := by
      rcases List.mem_append.mp hother with hother | hother
      · exact List.mem_append_left _ hother
      · exact List.mem_append_right _ (List.mem_cons_of_mem _ hother)
    obtain ⟨leaf, hmem⟩ := hstores.leaves other hbefore
    rcases List.mem_cons.mp hmem with heq | hmem
    · exact absurd (congrArg Prod.fst heq) hne
    · exact ⟨leaf, hmem⟩
  · have hlive := hstores.livePages
    rw [List.length_cons] at hlive
    simp [Tree.retire, Stats.countRetired, hlive]
  · have hprev := hstores.chains.prev?_eq
    have hnext := hstores.chains.next?_eq
    have hlinked : tree.pages.Evolves (tree.pages.unlink id) := by
      refine .unlink hid ?_ ?_
      · intro prev hmem
        rw [hprev] at hmem
        exact hstores.live_leaf
          (List.mem_append_left _ (List.mem_of_getLast? hmem))
      · intro next hmem
        rw [hnext] at hmem
        exact hstores.live_leaf (List.mem_append_right _
          (List.mem_cons_of_mem _ (List.mem_of_mem_head? hmem)))
    exact hlinked.trans
      (.markRetired ((hholds.live_iff id _).mpr List.mem_cons_self))

end Stores

namespace Holds

variable {tree : Tree V} {context : Context V}

theorem node {t : Subtree V} (hholds : tree.Holds (context.plug t)) :
    tree.pages.node t.page = .ok t.node := by
  apply hholds.stores.holds.node
  rw [(context.cells_plug_perm t).mem_iff, cells_eq]
  exact List.mem_append_left _ List.mem_cons_self

theorem setLeaf {page : PageId} {contents : Leaf V}
    (hholds : tree.Holds (context.plug (.leaf page contents))) (new : Leaf V) :
    (tree.setNode page (.leaf new)).Holds (context.plug (.leaf page new)) ∧
      tree.Continues (tree.setNode page (.leaf new)) [] := by
  have hpages : (context.plug (.leaf page new)).leafPages =
      (context.plug (.leaf page contents)).leafPages :=
    context.leafPages_plug_leaf page contents new
  have hperm : ∀ leaf : Leaf V, (context.plug (.leaf page leaf)).cells.Perm
      ([] ++ (page, .leaf leaf) :: context.cells page) := by
    intro leaf
    have hplug := context.cells_plug_perm (.leaf page leaf)
    rw [cells_leaf] at hplug
    exact hplug
  have hstores := hholds.stores.perm (hperm contents)
  obtain ⟨hset, hcontinues⟩ := hstores.setNode (.leaf new) rfl
  refine ⟨⟨?_, hpages ▸ hset.perm (hperm new).symm⟩, hcontinues⟩
  exact hholds.root.trans (context.plug_page_congr rfl)

end Holds

end Tree

end LatchTree
