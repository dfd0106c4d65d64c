import LatchTree.Scan.Walk
import LatchTree.Proofs.Tree.Descent

/-!
# Walks over sound trees

A walk over a tree that shows a subtree finds a leaf to visit that does not begin
above its lower bound: it descends to one, or follows the link of the last one.
What lies below that leaf is below the bound, so the visit yields the first of
the entries that the walk has yet to pass, and the walk goes on with the others.
The visits of a whole walk yield all of them.  Over a sound tree a walk also
finds its way if it paused while the tree changed, whatever became of the leaf
it remembers.
-/

namespace LatchTree

open Subtree

variable {V : Type}

namespace Key

theorem max_le_iff {a b c : Key} : max a b ≤ c ↔ a ≤ c ∧ b ≤ c := by
  simp only [max]
  split <;> grind

theorem le_max_left (a b : Key) : a ≤ max a b :=
  (max_le_iff.mp (UInt64.le_refl _)).1

theorem le_max_right (a b : Key) : b ≤ max a b :=
  (max_le_iff.mp (UInt64.le_refl _)).2

theorem max_eq_right {a b : Key} (hle : a ≤ b) : max a b = b :=
  if_pos hle

end Key

namespace Walk

/-- The entries that a walk has yet to pass, should the tree stay as it is. -/
def pending (walk : Walk) (t : Subtree V) : List (Key × V) :=
  if walk.cursor = .finished then [] else t.entries.filter (walk.lower ≤ ·.1)

/-- A page that a walk remembers is a leaf.  It may have been retired. -/
def Remembers (walk : Walk) (pages : PageTable V) : Prop :=
  ∀ id, walk.cursor = .leaf id →
    ∃ page, pages.page? id = some page ∧ page.node.kind = .leaf

/-- The leaves that a walk has yet to visit, should the tree stay as it is. -/
inductive Facing (tree : Tree V) (t : Subtree V) (walk : Walk) :
    List (PageId × Leaf V) → Prop
  | finished : walk.cursor = .finished → Facing tree t walk []
  | leaf {before after : List (PageId × Leaf V)} {page : PageId}
      {contents : Leaf V} {descended : Bool} :
      t.leaves = before ++ (page, contents) :: after →
      contents.low ≤ walk.lower →
      walk.nextVisit? tree =
        .ok (some (walk.visit tree page descended contents)) →
      Facing tree t walk ((page, contents) :: after)

theorem pending_start (t : Subtree V) (lower : Key) :
    (start lower).pending t = t.entries.filter (lower ≤ ·.1) := by
  rw [pending, if_neg (by simp [start])]
  rfl

theorem mem_pending {walk : Walk} {t : Subtree V} {e : Key × V} :
    e ∈ walk.pending t ↔
      walk.cursor ≠ .finished ∧ walk.lower ≤ e.1 ∧ e ∈ t.entries := by
  unfold pending
  split
  · simp [*]
  · simp [*, and_comm]

theorem remembers_start (lower : Key) (pages : PageTable V) :
    (start lower).Remembers pages := by
  intro id hcursor
  cases hcursor

theorem Remembers.evolve {walk : Walk} {old new : PageTable V}
    (hremembers : walk.Remembers old) (hevolves : old.Evolves new) :
    walk.Remembers new := by
  intro id hcursor
  obtain ⟨page, hpage, hkind⟩ := hremembers id hcursor
  obtain ⟨later, hlater, hkept, _⟩ := hevolves id page hpage
  exact ⟨later, hlater, hkept.trans hkind⟩

theorem lower_le_after (walk : Walk) (visit : Visit V) :
    walk.lower ≤ (walk.after visit).lower := by
  unfold after
  split
  · exact Key.le_max_left _ _
  · exact UInt64.le_refl _

/-! ## Single visits -/

section Visit

variable {tree : Tree V} {t : Subtree V} {walk : Walk}
  {before after : List (PageId × Leaf V)} {page : PageId} {contents : Leaf V}

theorem next?_eq (hshows : tree.Shows t)
    (hleaves : t.leaves = before ++ (page, contents) :: after) :
    tree.pages.next? page = (after.map (·.1)).head? := by
  have hpages : t.leafPages = before.map (·.1) ++ page :: after.map (·.1) := by
    rw [leafPages, Cell.leafPagesIn, ← leaves, hleaves, List.map_append,
      List.map_cons]
  have hlinked := hshows.linked
  rw [hpages, PageTable.linked_append] at hlinked
  rw [hlinked.2.2.1, Option.or_none]

theorem after_visit_last (hshows : tree.Shows t)
    (hleaves : t.leaves = before ++ [(page, contents)]) (descended : Bool) :
    walk.after (walk.visit tree page descended contents) =
      ⟨.finished, walk.lower⟩ := by
  have htiles := hshows.wellFormed.fits.tiles
  rw [hleaves] at htiles
  have hhigh : contents.high = none := htiles.last_high
  simp only [Walk.after, visit, hhigh]

theorem after_visit_next {next : PageId × Leaf V} (hshows : tree.Shows t)
    (hleaves : t.leaves = before ++ (page, contents) :: next :: after)
    (descended : Bool) :
    walk.after (walk.visit tree page descended contents) =
      ⟨.leaf next.1, max walk.lower next.2.low⟩ := by
  have htiles := hshows.wellFormed.fits.tiles
  rw [hleaves] at htiles
  have hhigh : contents.high = some next.2.low := htiles.consecutive.1
  have hnext : tree.pages.next? page = some next.1 := by
    rw [next?_eq hshows hleaves, List.map_cons, List.head?_cons]
  simp only [Walk.after, visit, hhigh, hnext]

theorem visit_entries (hshows : tree.Shows t)
    (hleaves : t.leaves = before ++ (page, contents) :: after)
    (descended : Bool) :
    (walk.visit tree page descended contents).entries =
      contents.entries.filter (walk.lower ≤ ·.1) := by
  have htiles := hshows.wellFormed.fits.tiles
  rw [hleaves] at htiles
  obtain ⟨inner, hfits, _⟩ := htiles.split
  exact hfits.entriesFrom_eq_filter walk.lower

/-- The entries from a key on stand in the leaves from any leaf on that does not
begin above it. -/
theorem filter_entries (hshows : tree.Shows t)
    (hleaves : t.leaves = before ++ (page, contents) :: after) {lower : Key}
    (hlow : contents.low ≤ lower) :
    t.entries.filter (lower ≤ ·.1) =
      contents.entries.filter (lower ≤ ·.1) ++
        (after.flatMap (·.2.entries)).filter (lower ≤ ·.1) := by
  have htiles := hshows.wellFormed.fits.tiles
  rw [hleaves] at htiles
  obtain ⟨_, _, _, hbefore, _⟩ := htiles.split
  have hnone : (before.flatMap (·.2.entries)).filter (lower ≤ ·.1) = [] := by
    rw [List.filter_eq_nil_iff]
    intro e he
    have := hbefore e he
    grind
  rw [entries, Cell.entriesIn, ← leaves, hleaves, List.flatMap_append,
    List.flatMap_cons, List.filter_append, List.filter_append, hnone,
    List.nil_append]

/-- A visit yields the first of the entries that a walk has yet to pass, and
leaves the others. -/
theorem pending_eq (hshows : tree.Shows t)
    (hleaves : t.leaves = before ++ (page, contents) :: after)
    (hlow : contents.low ≤ walk.lower) (hopen : walk.cursor ≠ .finished)
    (descended : Bool) :
    walk.pending t =
      (walk.visit tree page descended contents).entries ++
        (walk.after (walk.visit tree page descended contents)).pending t := by
  rw [pending, if_neg hopen, filter_entries hshows hleaves hlow,
    visit_entries hshows hleaves descended]
  congr 1
  cases after with
  | nil =>
      rw [after_visit_last hshows hleaves, pending, if_pos rfl]
      rfl
  | cons next rest =>
      have htiles := hshows.wellFormed.fits.tiles
      rw [hleaves] at htiles
      obtain ⟨_, _, hrest⟩ := htiles.consecutive
      have hsplit : t.leaves = (before ++ [(page, contents)]) ++
          next :: rest := by
        rw [hleaves, List.append_assoc, List.singleton_append]
      rw [after_visit_next hshows hleaves, pending, if_neg (by simp),
        filter_entries hshows hsplit (Key.le_max_right _ _),
        ← List.filter_append]
      apply List.filter_congr
      intro e he
      simp only [Key.max_le_iff, hrest e he, and_true]

theorem visit_entries_lt (hshows : tree.Shows t)
    (hleaves : t.leaves = before ++ (page, contents) :: after)
    (descended : Bool)
    (hopen : (walk.after (walk.visit tree page descended contents)).cursor ≠
      .finished)
    {e : Key × V} (he : e ∈ (walk.visit tree page descended contents).entries) :
    e.1 < (walk.after (walk.visit tree page descended contents)).lower := by
  cases after with
  | nil => exact absurd (by rw [after_visit_last hshows hleaves]) hopen
  | cons next rest =>
      have htiles := hshows.wellFormed.fits.tiles
      rw [hleaves] at htiles
      obtain ⟨_, hbelow, _⟩ := htiles.consecutive
      rw [visit_entries hshows hleaves] at he
      rw [after_visit_next hshows hleaves]
      exact UInt64.lt_of_lt_of_le (hbelow e (List.mem_of_mem_filter he))
        (Key.le_max_right _ _)

end Visit

/-! ## Whole walks -/

section Facing

variable {tree : Tree V} {t : Subtree V} {walk : Walk}

theorem nextVisit?_leaf (hshows : tree.Shows t)
    {before after : List (PageId × Leaf V)} {page : PageId} {contents : Leaf V}
    (hleaves : t.leaves = before ++ (page, contents) :: after)
    (hcursor : walk.cursor = .leaf page) (hlow : contents.low ≤ walk.lower) :
    walk.nextVisit? tree =
      .ok (some (walk.visit tree page false contents)) := by
  have hmem : (page, Node.leaf contents) ∈ t.cells :=
    mem_cells_of_leaves_eq hleaves
  obtain ⟨stored, hpage, hlive, _⟩ := hshows.carries.page_eq hmem
  have hleaf := hshows.carries.leaf hmem
  have htrust : ¬ walk.lower < contents.low := UInt64.not_lt.mpr hlow
  simp only [nextVisit?, hcursor, PageTable.page, hpage, hleaf, bind,
    Except.bind, hlive, htrust, decide_false, Bool.or_false, Bool.false_eq_true,
    if_false]
  rfl

theorem facing_of_seek (hshows : tree.Shows t)
    (hseek : walk.nextVisit? tree = (do return some (← walk.seekLeaf tree))) :
    ∃ leaves, walk.Facing tree t leaves := by
  obtain ⟨context, page, contents, bounds, hleads, hleafFor⟩ :=
    hshows.exists_leafFor walk.lower
  obtain ⟨before, after, hleaves⟩ := exists_leaves_eq hleads.mem_cells
  have hlow := hleads.fits.low_le_of_admits hleads.admits
  have hvisit : walk.nextVisit? tree =
      .ok (some (walk.visit tree page true contents)) := by
    rw [hseek, seekLeaf, hleafFor]
    rfl
  exact ⟨_, .leaf hleaves hlow hvisit⟩

theorem facing_start (hshows : tree.Shows t) (lower : Key) :
    ∃ leaves, (start lower).Facing tree t leaves :=
  facing_of_seek hshows rfl

/-- Whatever became of the leaf that a walk remembers, the walk finds its way.
-/
theorem exists_facing (hsound : tree.Sound t)
    (hremembers : walk.Remembers tree.pages) :
    ∃ leaves, walk.Facing tree t leaves := by
  cases hcursor : walk.cursor with
  | finished => exact ⟨[], .finished hcursor⟩
  | seek => exact facing_of_seek hsound.shows (by simp only [nextVisit?, hcursor])
  | leaf id =>
      obtain ⟨page, hpage, hkind⟩ := hremembers id hcursor
      obtain ⟨contents, hnode⟩ : ∃ contents, page.node = .leaf contents := by
        cases hnode : page.node with
        | leaf contents => exact ⟨contents, rfl⟩
        | branch contents => simp [hnode, Node.kind] at hkind
      have hleaf : tree.pages.leaf id = .ok contents := by
        simp [PageTable.leaf, PageTable.node, PageTable.page, hpage, hnode,
          Except.map, bind, Except.bind]
      by_cases hstale : page.retired || walk.lower < contents.low
      · apply facing_of_seek hsound.shows
        simp only [nextVisit?, hcursor, PageTable.page, hpage, hleaf, bind,
          Except.bind, hstale, if_true]
      · simp only [Bool.or_eq_true, decide_eq_true_eq, not_or, Bool.not_eq_true]
          at hstale
        obtain ⟨hlive, hlow⟩ := hstale
        have hcell : (id, Node.leaf contents) ∈ t.cells := by
          rw [← hsound.stores.holds.live_iff, PageTable.liveNode?_eq_some_iff]
          exact ⟨page, hpage, hlive, hnode⟩
        obtain ⟨before, after, hleaves⟩ := exists_leaves_eq hcell
        have hbegins := UInt64.not_lt.mp hlow
        exact ⟨_, .leaf hleaves hbegins
          (nextVisit?_leaf hsound.shows hleaves hcursor hbegins)⟩

/-- What one visit does to a walk, with the leaves that are left to visit. -/
structure Advances (tree : Tree V) (t : Subtree V) (walk : Walk)
    (visit : Visit V) (rest : List (PageId × Leaf V)) : Prop where
  visited : walk.nextVisit? tree = .ok (some visit)
  facing : (walk.after visit).Facing tree t rest
  remembers : (walk.after visit).Remembers tree.pages
  pending : walk.pending t = visit.entries ++ (walk.after visit).pending t
  ascending : Ascending visit.entries
  above : ∀ e ∈ visit.entries, walk.lower ≤ e.1
  below : (walk.after visit).cursor ≠ .finished →
    ∀ e ∈ visit.entries, e.1 < (walk.after visit).lower

namespace Facing

variable {leaf : PageId × Leaf V} {rest : List (PageId × Leaf V)}

theorem length_le (hfacing : walk.Facing tree t rest) (hshows : tree.Shows t) :
    rest.length ≤ tree.pages.size := by
  have hcells : t.leaves.length ≤ t.cells.length := List.length_filterMap_le _ _
  have hsize := hshows.cells_le_size
  cases hfacing with
  | finished => exact Nat.zero_le _
  | leaf hleaves _ _ =>
      rw [hleaves, List.length_append] at hcells
      omega

theorem finished_iff (hfacing : walk.Facing tree t rest) :
    walk.cursor = .finished ↔ rest = [] := by
  cases hfacing with
  | finished hcursor => exact iff_of_true hcursor rfl
  | leaf _ _ hvisit =>
      refine iff_of_false (fun hcursor => ?_) (List.cons_ne_nil _ _)
      rw [nextVisit?, hcursor] at hvisit
      cases hvisit

theorem exists_advances (hfacing : walk.Facing tree t (leaf :: rest))
    (hshows : tree.Shows t) :
    ∃ visit, walk.Advances tree t visit rest := by
  have hopen : walk.cursor ≠ .finished :=
    fun hcursor => List.cons_ne_nil _ _ (hfacing.finished_iff.mp hcursor)
  cases hfacing with
  | @leaf before _ page contents descended hleaves hlow hvisit =>
      have hentries : (walk.visit tree page descended contents).entries =
          contents.entries.filter (walk.lower ≤ ·.1) :=
        visit_entries hshows hleaves descended
      have hascending := hshows.wellFormed.fits.tiles
      rw [hleaves] at hascending
      obtain ⟨_, hfits, _⟩ := hascending.split
      refine ⟨_, ⟨hvisit, ?_, ?_,
        pending_eq hshows hleaves hlow hopen descended, ?_, ?_,
        fun hnext e he => visit_entries_lt hshows hleaves descended hnext he⟩⟩
      · cases rest with
        | nil => exact .finished (by rw [after_visit_last hshows hleaves])
        | cons next rest =>
            have hsplit : t.leaves = (before ++ [(page, contents)]) ++
                next :: rest := by
              rw [hleaves, List.append_assoc, List.singleton_append]
            rw [after_visit_next hshows hleaves]
            exact .leaf hsplit (Key.le_max_right _ _)
              (nextVisit?_leaf hshows hsplit rfl (Key.le_max_right _ _))
      · intro id hcursor
        cases rest with
        | nil =>
            rw [after_visit_last hshows hleaves] at hcursor
            cases hcursor
        | cons next rest =>
            rw [after_visit_next hshows hleaves] at hcursor
            cases hcursor
            have hmem : next ∈ t.leaves := by rw [hleaves]; simp
            obtain ⟨stored, hpage, _, hnode⟩ :=
              hshows.carries.page_eq (Cell.mem_leavesIn.mp hmem)
            exact ⟨stored, hpage, congrArg Node.kind hnode⟩
      · rw [hentries]
        exact hfits.ascending.sublist List.filter_sublist
      · intro e he
        rw [hentries, List.mem_filter] at he
        exact of_decide_eq_true he.2

end Facing

theorem visitsWithin_eq (hshows : tree.Shows t) {rest : List (PageId × Leaf V)}
    (hfacing : walk.Facing tree t rest) {fuel : Nat}
    (hfuel : rest.length < fuel) :
    ∃ visits, visitsWithin tree fuel walk = .ok visits ∧
      visits.flatMap (·.entries) = walk.pending t := by
  induction rest generalizing walk fuel with
  | nil =>
      obtain ⟨fuel, rfl⟩ :=
        Nat.exists_eq_add_one_of_ne_zero (Nat.ne_of_gt hfuel)
      have hcursor := hfacing.finished_iff.mpr rfl
      refine ⟨[], ?_, ?_⟩
      · rw [visitsWithin, nextVisit?, hcursor]
        rfl
      · rw [pending, if_pos hcursor]
        rfl
  | cons leaf rest ih =>
      obtain ⟨fuel, rfl⟩ := Nat.exists_eq_add_one_of_ne_zero
        (Nat.ne_of_gt (Nat.lt_of_le_of_lt (Nat.zero_le _) hfuel))
      obtain ⟨visit, hadvances⟩ := hfacing.exists_advances hshows
      obtain ⟨visits, hvisits, hentries⟩ :=
        ih hadvances.facing (Nat.lt_of_succ_lt_succ hfuel)
      refine ⟨visit :: visits, ?_, ?_⟩
      · rw [visitsWithin, hadvances.visited]
        simp only [bind, Except.bind, hvisits]
        rfl
      · rw [List.flatMap_cons, hentries, hadvances.pending]

end Facing

end Walk

namespace Tree

variable {tree : Tree V} {t : Subtree V}

theorem Shows.size_eq (hshows : tree.Shows t) :
    tree.size = .ok t.entries.length := by
  obtain ⟨rest, hfacing⟩ := Walk.facing_start hshows 0
  obtain ⟨visits, hvisits, hentries⟩ := Walk.visitsWithin_eq hshows hfacing
    (Nat.lt_succ_of_le (hfacing.length_le hshows))
  rw [Walk.pending_start, filter_zero_le] at hentries
  rw [size, Walk.visits, hvisits, ← hentries]
  rfl

theorem Sound.size_eq (hsound : tree.Sound t) :
    tree.size = .ok t.entries.length :=
  hsound.shows.size_eq

end Tree

end LatchTree
