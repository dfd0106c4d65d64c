import Mathlib.Data.List.Chain
import LatchTree.Proofs.Tree.Cascade
import LatchTree.Proofs.Tree.Reach

/-!
# What a descent finds

A descent visits one page on each level and ends at the only leaf in use whose
fences enclose the key.  It latches the root pointer and then each page that it
visits.  Of these latches it still holds those from the deepest safe page down,
or all of them if no page on the way is safe.
-/

namespace LatchTree

open Subtree Context

variable {V : Type}

/-! ## Leaves that cover a key -/

/-- The key lies between the fences. -/
structure Leaf.Covers (leaf : Leaf V) (key : Key) : Prop where
  low : leaf.low ≤ key
  high : ∀ high ∈ leaf.high, key < high

theorem Leaf.FitsIn.covers {leaf : Leaf V} {bounds : Bounds} {key : Key}
    (hfits : leaf.FitsIn bounds) (hkey : bounds.Admits key) :
    leaf.Covers key where
  low := hfits.low_le_of_admits hkey
  high := by
    rw [hfits.high]
    exact hkey.upper

namespace Subtree.Tiles

variable {bounds : Bounds} {tiles : List (PageId × Leaf V)}

theorem lower_le_low (htiles : Tiles bounds tiles) {leaf : PageId × Leaf V}
    (hleaf : leaf ∈ tiles) {lower : Key} (hlower : lower ∈ bounds.lower) :
    lower ≤ leaf.2.low := by
  obtain ⟨before, after, rfl⟩ := List.append_of_mem hleaf
  obtain ⟨_, _, hlow, _⟩ := htiles.split
  exact hlow lower hlower

/-- Tiles do not overlap. -/
theorem eq_of_covers (htiles : Tiles bounds tiles)
    {first second : PageId × Leaf V} (hfirst : first ∈ tiles)
    (hsecond : second ∈ tiles) {key : Key} (hcovers : first.2.Covers key)
    (halso : second.2.Covers key) : first = second := by
  induction htiles with
  | one hleaf =>
      rw [List.mem_singleton.mp hfirst, List.mem_singleton.mp hsecond]
  | @cons bounds separator leaf rest hleaf hrest ih =>
      have hend : separator ∈ leaf.2.high := by rw [hleaf.high]; rfl
      have hbeyond : ∀ other ∈ rest, leaf.2.Covers key →
          ¬ other.2.Covers key := by
        intro other hother hinside hagain
        have hbelow : key < separator := hinside.high separator hend
        have habove : separator ≤ other.2.low :=
          hrest.lower_le_low hother rfl
        have hlow := hagain.low
        grind
      rcases List.mem_cons.mp hfirst with rfl | hfirstLater
      · rcases List.mem_cons.mp hsecond with rfl | hsecondLater
        · rfl
        · exact absurd halso (hbeyond second hsecondLater hcovers)
      · rcases List.mem_cons.mp hsecond with rfl | hsecondLater
        · exact absurd hcovers (hbeyond first hfirstLater halso)
        · exact ih hfirstLater hsecondLater

/-- A leaf behind another one covers the key at which it begins. -/
theorem covers_low {before after : List (PageId × Leaf V)}
    {leaf next : PageId × Leaf V}
    (htiles : Tiles bounds (before ++ leaf :: next :: after)) :
    next.2.Covers next.2.low := by
  obtain ⟨_, _, _, _, hafter⟩ := htiles.split
  rcases hafter with ⟨hnil, _⟩ | ⟨separator, _, hrest⟩
  · cases hnil
  · have hinside : ∀ {upper : Option Key},
        next.2.FitsIn ⟨some separator, upper⟩ → next.2.Covers next.2.low := by
      intro upper hnext
      have hlow : next.2.low = separator := hnext.low
      refine ⟨UInt64.le_refl _, fun high hhigh => ?_⟩
      rw [hnext.high] at hhigh
      rw [hlow]
      exact hnext.proper separator rfl high hhigh
    cases hrest with
    | one hnext => exact hinside hnext
    | cons hnext _ => exact hinside hnext

end Subtree.Tiles

/-! ## The latches that are taken -/

namespace Tree

/-- The same descent as `descendFrom`.  Beside the latches that it holds, it
notes all that it has taken. -/
def descendNotedFrom (tree : Tree V) (key : Key) (access : Access) :
    Nat → PageId → Nat → List Link → List Link →
      Except Fault (List Link × List Link)
  | 0, _, _, _, _ => .error .endless
  | fuel + 1, page, slot, above, taken => do
    let node ← tree.pages.node page
    let links := tree.heldLinks access node (.page page slot) above
    let taken := .page page slot :: taken
    match node with
    | .leaf _ => return (links, taken)
    | .branch contents =>
      let next := contents.slotFor key
      tree.descendNotedFrom key access fuel (← contents.child next) next links
        taken

def descendNoted (tree : Tree V) (key : Key) (access : Access) :
    Except Fault (LatchPath × List Link) := do
  let (links, taken) ←
    tree.descendNotedFrom key access tree.pages.size tree.root 0 [.root] [.root]
  return (⟨access.mode, links⟩, taken)

section Noted

variable (tree : Tree V) (key : Key) (access : Access)

theorem descendNotedFrom_eq (fuel : Nat) (page : PageId) (slot : Nat)
    (above taken : List Link) :
    tree.descendNotedFrom key access fuel page slot above taken = (do
      let links ← tree.descendFrom key access fuel page slot above
      let all ← tree.descendUnder .never key fuel page slot taken
      return (links, all)) := by
  induction fuel generalizing page slot above taken with
  | zero => rfl
  | succ fuel ih =>
      rw [descendNotedFrom, descendFrom, descendUnder]
      cases tree.pages.node page with
      | error fault => rfl
      | ok node =>
          cases node with
          | leaf contents => rfl
          | branch contents =>
              simp only [bind, Except.bind, ih]
              cases contents.child (contents.slotFor key) <;> rfl

theorem descendNoted_of_descend {path full : LatchPath}
    (hpath : tree.descend key access = .ok path)
    (hfull : tree.descendBy .never key access = .ok full) :
    tree.descendNoted key access = .ok (path, full.links) := by
  rw [descend] at hpath
  rw [descendBy] at hfull
  rw [descendNoted, descendNotedFrom_eq]
  cases hlinks : tree.descendFrom key access tree.pages.size tree.root 0
      [.root] with
  | error fault =>
      rw [hlinks] at hpath
      cases hpath
  | ok links =>
      cases hall : tree.descendUnder .never key tree.pages.size tree.root 0
          [.root] with
      | error fault =>
          rw [hall] at hfull
          cases hfull
      | ok all =>
          rw [hlinks] at hpath
          rw [hall] at hfull
          cases hpath
          cases hfull
          rfl

end Noted

/-! ## The latches that are left -/

/-- Whether an operation does not reach beyond the page of a link. -/
def isSafeAt (tree : Tree V) (access : Access) : Link → Bool
  | .root => false
  | .page id _ =>
    match tree.pages.node id with
    | .ok node => node.isSafe tree.config access (id = tree.root)
    | .error _ => false

/-- The page of the lower link is a child of the page of the upper one, and
stands there in its slot and in no other. -/
def Hangs (tree : Tree V) : Link → Link → Prop
  | .page child slot, .page parent _ =>
      ∃ contents, tree.pages.branch parent = .ok contents ∧
        ∀ i, contents.children[i]? = some child ↔ i = slot
  | _, _ => False

/-- What a descent for a key finds: the leaf that covers the key, by way of the
visited pages, the last of which comes first. -/
structure Finds (tree : Tree V) (key : Key) (access : Access) (path : LatchPath)
    (visited : List Link) (page : PageId) (contents : Leaf V) : Prop where
  length : visited.length = tree.height
  lower : ∃ slot, visited.head? = some (.page page slot)
  upper : visited.getLast? = some (.page tree.root 0)
  nodup : (visited.filterMap Link.page?).Nodup
  hangs : visited.IsChain tree.Hangs
  live : tree.pages.liveNode? page = some (.leaf contents)
  covers : contents.Covers key
  only : ∀ other others, tree.pages.liveNode? other = some (.leaf others) →
    others.Covers key → other = page
  mode : path.mode = access.mode
  /-- Held are the latches up to that of the first safe page, or all of them. -/
  held : path.links = (visited ++ [Link.root]).take
    (visited.findIdx (tree.isSafeAt access) + 1)
  read : access = .read → path.links = visited.take 1

end Tree

namespace Context

/-- The links of the pages from that in the gap up to the root. -/
def linksUp : Context V → Subtree V → List Link
  | [], t => [.page t.page 0]
  | frame :: rest, t =>
      .page t.page frame.left.length :: linksUp rest (frame.plug t)

theorem linksUp_append_root (context : Context V) (t : Subtree V) :
    context.linksUp t ++ [.root] =
      .page t.page context.slot :: context.held .never t := by
  induction context generalizing t with
  | nil => rfl
  | cons frame rest ih =>
      rw [linksUp, List.cons_append, ih]
      rfl

@[simp] theorem length_linksUp (context : Context V) (t : Subtree V) :
    (context.linksUp t).length = context.length + 1 := by
  induction context generalizing t with
  | nil => rfl
  | cons frame rest ih => rw [linksUp, List.length_cons, ih, List.length_cons]

theorem head?_linksUp (context : Context V) (t : Subtree V) :
    (context.linksUp t).head? = some (.page t.page context.slot) := by
  cases context <;> rfl

theorem pages_linksUp (context : Context V) (t : Subtree V) :
    (context.linksUp t).filterMap Link.page? =
      (context.cellsUp t).map (·.1) := by
  induction context generalizing t with
  | nil => rfl
  | cons frame rest ih =>
      rw [cellsUp, List.map_cons, ← ih]
      rfl

theorem getLast?_linksUp (context : Context V) (t : Subtree V) :
    (context.linksUp t).getLast? = some (.page (context.plug t).page 0) := by
  induction context generalizing t with
  | nil => rfl
  | cons frame rest ih =>
      rw [linksUp, List.getLast?_cons, ih]
      rfl

theorem cellsUp_eq (context : Context V) (t : Subtree V) :
    context.cellsUp t = (t.page, t.node) :: context.cellsAround t.page := by
  induction context generalizing t with
  | nil => rfl
  | cons frame rest ih =>
      rw [cellsUp, ih, cellsAround]
      simp [Frame.plug, Frame.fill, node, Subtree.page]

/-- The pages on the way up are distinct. -/
theorem nodup_cellsUp {context : Context V} {t : Subtree V}
    (hnodup : ((context.plug t).cells.map (·.1)).Nodup) :
    ((context.cellsUp t).map (·.1)).Nodup := by
  rw [((context.cells_plug_perm t).map _).nodup_iff, cells_eq, cells,
    List.cons_append] at hnodup
  rw [cellsUp_eq]
  refine hnodup.sublist (List.Sublist.map _ (List.Sublist.cons_cons _ ?_))
  exact (List.sublist_append_left _ _).trans (List.sublist_append_right _ _)

theorem plug_page_mem_cellsUp (context : Context V) (t : Subtree V) :
    (context.plug t).page ∈ (context.cellsUp t).map (·.1) := by
  induction context generalizing t with
  | nil => exact List.mem_cons_self
  | cons frame rest ih =>
      rw [cellsUp, List.map_cons]
      exact List.mem_cons_of_mem _ (ih (frame.plug t))

end Context

namespace Tree

section Shows

variable {tree : Tree V} {context : Context V} {t : Subtree V}

theorem Shows.node_plug (hshows : tree.Shows (context.plug t)) :
    tree.pages.node t.page = .ok t.node := by
  apply hshows.carries.node
  rw [(context.cells_plug_perm t).mem_iff, cells_eq]
  exact List.mem_append_left _ List.mem_cons_self

/-- The innermost frame around a gap is a branch with all its children. -/
theorem Shows.branch_plug {frame : Frame V} {rest : Context V}
    (hshows : tree.Shows (rest.plug (frame.plug t))) :
    tree.pages.branch frame.page =
      .ok ⟨slots (frame.left ++ [(frame.key, t)] ++ frame.right)⟩ := by
  have hnode : tree.pages.node frame.page = .ok (frame.plug t).node :=
    hshows.node_plug
  rw [PageTable.branch, hnode]
  rfl

theorem Shows.page_eq_root_iff (hshows : tree.Shows (context.plug t)) :
    t.page = tree.root ↔ context.isEmpty := by
  rw [hshows.root]
  cases context with
  | nil => simp [plug]
  | cons frame rest =>
      have hnodup := nodup_cellsUp hshows.nodup
      rw [cellsUp, List.map_cons, List.nodup_cons] at hnodup
      have hroot := plug_page_mem_cellsUp rest (frame.plug t)
      simp only [List.isEmpty_cons, Bool.false_eq_true, iff_false]
      exact fun heq => hnodup.1 (heq ▸ hroot)

theorem Shows.isSafeAt_eq (hshows : tree.Shows (context.plug t))
    (access : Access) (slot : Nat) :
    tree.isSafeAt access (.page t.page slot) =
      t.node.isSafe tree.config access context.isEmpty := by
  simp only [isSafeAt, hshows.node_plug, hshows.page_eq_root_iff,
    Bool.decide_eq_true]

theorem Shows.held_eq_take (hshows : tree.Shows (context.plug t))
    (access : Access) :
    .page t.page context.slot ::
        context.held (.safe tree.config access) t =
      (context.linksUp t ++ [Link.root]).take
        ((context.linksUp t).findIdx (tree.isSafeAt access) + 1) := by
  induction context generalizing t with
  | nil =>
      have hsafe := hshows.isSafeAt_eq access 0
      rw [linksUp, List.findIdx_cons, hsafe]
      cases hnode : t.node.isSafe tree.config access true <;>
        simp [held, ReleaseRule.safe, slot, hnode]
  | cons frame rest ih =>
      have hsafe := hshows.isSafeAt_eq access frame.left.length
      rw [linksUp, List.findIdx_cons, hsafe]
      cases hnode : t.node.isSafe tree.config access false with
      | true => simp [held, ReleaseRule.safe, hnode]
      | false =>
          simp only [List.isEmpty_cons, hnode, cond_false, List.cons_append,
            List.take_succ_cons]
          rw [← ih hshows]
          simp [held, ReleaseRule.safe, hnode]

/-- The page in the gap hangs below the branch of the innermost frame. -/
theorem Shows.hangs {frame : Frame V} {rest : Context V}
    (hshows : tree.Shows (rest.plug (frame.plug t))) (slot : Nat) :
    tree.Hangs (.page t.page frame.left.length) (.page frame.page slot) := by
  have hnodup := hshows.nodup
  rw [((rest.cells_plug_perm _).map _).nodup_iff, List.map_append] at hnodup
  have hbelow := (List.nodup_append.mp hnodup).1
  rw [Frame.plug, Frame.fill, cells_branch, List.map_cons] at hbelow
  have hhere : (frame.left ++ [(frame.key, t)] ++
      frame.right)[frame.left.length]? = some (frame.key, t) := by
    simp
  refine ⟨_, hshows.branch_plug, fun i => ⟨fun hchild => ?_, fun hslot => ?_⟩⟩
  · rw [Branch.children, slots, List.map_map, List.getElem?_map,
      Option.map_eq_some_iff] at hchild
    obtain ⟨e, he, hpage⟩ := hchild
    have hmem : t.page ∈ e.2.pages := hpage ▸ e.2.page_mem_pages
    exact slot_unique hbelow.tail he hhere hmem t.page_mem_pages
  · rw [hslot, Branch.children, slots, List.map_map, List.getElem?_map, hhere]
    rfl

theorem Shows.isChain_linksUp (hshows : tree.Shows (context.plug t)) :
    (context.linksUp t).IsChain tree.Hangs := by
  induction context generalizing t with
  | nil => exact List.IsChain.singleton _
  | cons frame rest ih =>
      rw [linksUp, List.isChain_cons]
      refine ⟨fun upper hupper => ?_, ih hshows⟩
      rw [head?_linksUp] at hupper
      obtain rfl := Option.mem_some.mp hupper
      exact hshows.hangs _

end Shows

theorem Sound.exists_finds {tree : Tree V} {t : Subtree V}
    (hsound : tree.Sound t) (key : Key) (access : Access) :
    ∃ path visited page contents,
      tree.descend key access = .ok path ∧
        tree.descendNoted key access = .ok (path, visited ++ [.root]) ∧
        tree.Finds key access path visited page contents := by
  obtain ⟨context, page, contents, bounds, hleads, hdescend⟩ :=
    hsound.exists_descend key
  have hpath := hdescend (.safe tree.config access) access
  rw [← descend_eq_descendBy] at hpath
  have hnoted := tree.descendNoted_of_descend key access hpath
    (hdescend .never access)
  have hshows := hsound.shows
  rw [hleads.plug] at hshows
  refine ⟨_, context.linksUp (.leaf page contents), page, contents, hpath, ?_,
    ?_⟩
  · rw [linksUp_append_root]
    exact hnoted
  constructor
  · rw [length_linksUp, hleads.outer.length_add_level]
  · exact ⟨_, context.head?_linksUp _⟩
  · rw [getLast?_linksUp, hsound.root, hleads.plug]
  · rw [pages_linksUp]
    exact nodup_cellsUp hshows.nodup
  · exact hshows.isChain_linksUp
  · exact (hsound.stores.holds.live_iff _ _).mpr hleads.mem_cells
  · exact hleads.fits.covers hleads.admits
  · intro other others hlive hcovers
    have hother := (hsound.stores.holds.live_iff _ _).mp hlive
    have htiles := hsound.wellFormed.fits.tiles
    have hsame : (other, others) = (page, contents) :=
      htiles.eq_of_covers (Cell.mem_leavesIn.mpr hother)
        (Cell.mem_leavesIn.mpr hleads.mem_cells) hcovers
        (hleads.fits.covers hleads.admits)
    exact congrArg Prod.fst hsame
  · rfl
  · exact hshows.held_eq_take access
  · rintro rfl
    have hnone : context.held (.safe tree.config .read)
        (.leaf page contents) = [] :=
      (held_eq _ _ _).trans (if_pos rfl)
    rw [hnone, List.take_one, head?_linksUp]
    rfl

/-- In any tree that a history of changes leads to, a descent visits one page on
each level, each in the only slot of its parent where it stands, and ends at the
only leaf in use that covers the key.  Held are then the latches from the
deepest safe page down, or all of them. -/
theorem descent_finds_leaf {config : Config}
    (hconfig : config.validate = .ok ()) (history : List (Change V)) :
    ∃ tree, (Tree.empty config).changeAll history = .ok tree ∧
      ∀ key access, ∃ path visited page contents,
        tree.descend key access = .ok path ∧
          tree.descendNoted key access = .ok (path, visited ++ [.root]) ∧
          tree.Finds key access path visited page contents := by
  have hvalid := Config.validate_eq_ok_iff.mp hconfig
  obtain ⟨tree, t, hrun, hsound⟩ :=
    (sound_empty hvalid).exists_changeAll history
  exact ⟨tree, hrun, fun key access => hsound.exists_finds key access⟩

/-- The branch above the leaf has a child to spare, so the root is let go. -/
theorem descent_finds_leaf_below_safe_branch :
    ({ degree := 3 } : Config).validate = .ok () ∧
      ∃ tree path visited page contents,
        (Tree.empty { degree := 3 }).changeAll
            (([1, 2, 3, 4, 5, 6, 7, 8, 9, 10, 11, 12] : List Key).map
              (.insert · 'a')) = .ok tree ∧
          tree.descend 12 .delete = .ok path ∧
          tree.Finds 12 .delete path visited page contents ∧
          visited = [.page 8 2, .page 6 1, .page 7 0] ∧
          path.links = [.page 8 2, .page 6 1] := by
  have hconfig : ({ degree := 3 } : Config).validate = .ok () := rfl
  obtain ⟨tree, hrun, hdescents⟩ := descent_finds_leaf hconfig
    (([1, 2, 3, 4, 5, 6, 7, 8, 9, 10, 11, 12] : List Key).map (.insert · 'a'))
  obtain ⟨path, visited, page, contents, hpath, hnoted, hfinds⟩ :=
    hdescents 12 .delete
  have hlinks : ((Tree.empty { degree := 3 }).changeAll
      (([1, 2, 3, 4, 5, 6, 7, 8, 9, 10, 11, 12] : List Key).map
        (.insert · 'a'))).bind (fun tree =>
          (tree.descendNoted 12 .delete).map fun e => (e.1.links, e.2)) =
      .ok ([.page 8 2, .page 6 1],
        [.page 8 2, .page 6 1, .page 7 0] ++ [.root]) := by
    decide +kernel
  rw [hrun, Except.bind, hnoted, Except.map, Except.ok.injEq, Prod.mk.injEq]
    at hlinks
  obtain ⟨hheld, hvisited⟩ := hlinks
  exact ⟨hconfig, tree, path, visited, page, contents, hrun, hpath, hfinds,
    List.append_cancel_right hvisited, hheld⟩

end Tree

end LatchTree
