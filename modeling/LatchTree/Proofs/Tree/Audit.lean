import LatchTree.Tree.Audit
import LatchTree.Proofs.Runs
import LatchTree.Proofs.Tree.Descent

/-!
# Audits of sound trees

The audit follows the nesting of a subtree.  Where the subtree fits into bounds,
each page passes the checks on its size, its keys and its fences, and the census
counts the cells and lists the leaves.  So every sound tree passes the audit.
-/

namespace LatchTree

open Subtree

variable {V : Type}

/-! ## Single checks -/

theorem Violation.unlessHolds_of {violation : Violation} {condition : Bool}
    (hcondition : condition = true) :
    violation.unlessHolds condition = .ok () := by
  rw [unlessHolds, if_pos hcondition]

def Subtree.census (t : Subtree V) : Census :=
  ⟨t.cells.length, t.leafPages⟩

namespace Branch

theorem boundsFrom_slots (bounds : Bounds) (children : List (Key × Subtree V)) :
    boundsFrom bounds (slots children) =
      (Subtree.childBounds bounds children).map fun c => (c.2.page, c.1) := by
  induction children generalizing bounds with
  | nil => rfl
  | cons first rest ih =>
      obtain ⟨key, child⟩ := first
      cases rest with
      | nil => rfl
      | cons second rest =>
          obtain ⟨separator, next⟩ := second
          rw [slots_cons, slots_cons, boundsFrom, ← slots_cons, ih,
            Subtree.childBounds, List.map_cons]

end Branch

namespace Tree

variable {tree : Tree V}

theorem auditSize_of_sized {t : Subtree V} {isRoot : Bool}
    (hsized : t.Sized tree.config isRoot) :
    tree.auditSize t.page t.node isRoot = .ok () := by
  obtain ⟨hleast, hmost⟩ := hsized
  have hcapacity : t.node.size ≤ tree.config.capacity t.node.kind := hmost
  have hleastNode : tree.config.leastSize isRoot t.node.kind ≤ t.node.size :=
    hleast
  unfold auditSize
  dsimp only
  rw [Violation.unlessHolds_of (decide_eq_true hcapacity)]
  refine Violation.unlessHolds_of
    (decide_eq_true (Nat.le_trans (Nat.le_of_eq ?_) hleastNode))
  cases isRoot <;> cases t <;> rfl

theorem auditKeys_of_admits {page : PageId} {keys : List Key} {bounds : Bounds}
    (hascending : keys.Pairwise (· < ·))
    (hbelow : ∀ key ∈ keys, bounds.admitsBelow key = true)
    (habove : ∀ key ∈ keys, bounds.admitsAbove key = true) :
    auditKeys page keys bounds = .ok () := by
  have hall := List.all_eq_true.mpr hbelow
  have hallAbove := List.all_eq_true.mpr habove
  simp only [auditKeys, Key.ascending_of_pairwise hascending, hall, hallAbove,
    Violation.unlessHolds_of, bind, Except.bind]

theorem auditKeys_leaf {page : PageId} {contents : Leaf V} {bounds : Bounds}
    (hleaf : contents.FitsIn bounds) :
    auditKeys page contents.keys bounds = .ok () := by
  apply auditKeys_of_admits
  · exact List.pairwise_map.mpr hleaf.ascending
  · intro key hkey
    obtain ⟨e, he, rfl⟩ := List.mem_map.mp hkey
    exact (hleaf.admits e he).admitsBelow
  · intro key hkey
    obtain ⟨e, he, rfl⟩ := List.mem_map.mp hkey
    exact (hleaf.admits e he).admitsAbove

theorem auditKeys_branch {page : PageId} {children : List (Key × Subtree V)}
    {bounds : Bounds} (hne : children ≠ [])
    (hproper : ∀ c ∈ Subtree.childBounds bounds children, c.1.Proper) :
    auditKeys page (Branch.mk (slots children)).separators bounds = .ok () := by
  have hkeys : (Branch.mk (slots children)).separators =
      children.tail.map (·.1) := by
    rw [Branch.separators, slots, ← List.map_tail, List.map_map]
    rfl
  obtain ⟨hascending, hwithin⟩ := separators_of_children hne hproper
  rw [hkeys]
  apply auditKeys_of_admits hascending
  · intro key hkey
    unfold Bounds.admitsBelow
    cases hlower : bounds.lower with
    | none => rfl
    | some lower =>
        simpa using UInt64.le_of_lt ((hwithin key hkey).1 lower hlower)
  · intro key hkey
    unfold Bounds.admitsAbove
    cases hupper : bounds.upper with
    | none => rfl
    | some upper => simpa using (hwithin key hkey).2 upper hupper

/-! ## Pages and the chain -/

theorem census_branch (page : PageId) (bounds : Bounds)
    (children : List (Key × Subtree V)) :
    Census.ofBranch
      ((Subtree.childBounds bounds children).map fun c => c.2.census) =
      (Subtree.branch page children).census := by
  have hparts :
      ((Subtree.childBounds bounds children).map fun c => c.2.census).foldr
        (fun child pages => child.pages + pages) 1 =
          (cellsOf children).length + 1 ∧
      ((Subtree.childBounds bounds children).map fun c => c.2.census).flatMap
        (·.leaves) = Cell.leafPagesIn (cellsOf children) := by
    induction children generalizing bounds with
    | nil => exact ⟨rfl, rfl⟩
    | cons first rest ih =>
        obtain ⟨key, child⟩ := first
        cases rest with
        | nil => simp [Subtree.childBounds, census, leafPages]
        | cons second rest =>
            obtain ⟨separator, next⟩ := second
            obtain ⟨hpages, hleaves⟩ := ih ⟨some separator, bounds.upper⟩
            rw [Subtree.childBounds, List.map_cons, List.foldr_cons,
              List.flatMap_cons, hpages, hleaves]
            constructor
            · rw [cellsOf_cons key child, List.length_append, Nat.add_assoc]
              rfl
            · rw [leafPagesIn_cellsOf_cons key child]
              rfl
  rw [Census.ofBranch, hparts.1, hparts.2, census, cells_branch,
    leafPages_branch, List.length_cons]

/-- A page whose subtree fits passes the audit, and so do the pages below it. -/
theorem auditPage_of_fits {t : Subtree V} {height : Nat} {bounds : Bounds}
    {isRoot : Bool}
    (hlive : ∀ id node, (id, node) ∈ t.cells →
      ∃ page, tree.pages.page id = .ok page ∧ page.retired = false ∧
        page.node = node)
    (hfits : t.Fits tree.config height bounds)
    (hsized : t.Sized tree.config isRoot) :
    tree.auditPage height t.page isRoot bounds = .ok t.census := by
  induction hfits generalizing isRoot with
  | @leaf bounds page contents hleaf =>
      obtain ⟨⟨_, prev, next, _⟩, hstored, rfl, rfl⟩ :=
        hlive page (.leaf contents)
          (by rw [cells_leaf]; exact List.mem_cons_self)
      have hsize : tree.auditSize page (.leaf contents) isRoot = .ok () :=
        auditSize_of_sized hsized
      rw [show (Subtree.leaf page contents).page = page from rfl, auditPage,
        hstored]
      simp only [Except.mapError, bind, Except.bind, hsize,
        auditKeys_leaf hleaf, hleaf.low, hleaf.high, Bool.not_false,
        decide_true, Violation.unlessHolds_of]
      rw [census, cells_leaf, leafPages_leaf]
      rfl
  | @branch height bounds page children hne hall hchildren ih =>
      obtain ⟨⟨_, prev, next, _⟩, hstored, rfl, rfl⟩ :=
        hlive page (.branch ⟨slots children⟩)
          (by rw [cells_branch]; exact List.mem_cons_self)
      have hsize : tree.auditSize page (.branch ⟨slots children⟩) isRoot =
          .ok () :=
        auditSize_of_sized hsized
      have hkeys : auditKeys page (Branch.mk (slots children)).separators
          bounds = .ok () :=
        auditKeys_branch hne fun c hc => (hchildren c hc).proper
      have hbranch : (Subtree.branch page children).Fits tree.config
          (height + 1) bounds :=
        .branch hne hall hchildren
      have hbelow : 0 < height := Nat.lt_of_succ_lt_succ hbranch.one_lt_height
      have hmap : ((Branch.mk (slots children)).childBounds bounds).mapM
          (fun c => tree.auditPage height c.1 false c.2) =
            .ok ((Subtree.childBounds bounds children).map fun c =>
              c.2.census) := by
        rw [Branch.childBounds, Branch.boundsFrom_slots, List.mapM_map]
        refine mapM_eq_ok fun c hc => ?_
        obtain ⟨key, hkey⟩ := mem_of_mem_childBounds hc
        refine ih c hc ?_ (hall _ hkey)
        intro id node hmem
        apply hlive id node
        rw [cells_branch]
        exact List.mem_cons_of_mem _ (mem_cellsOf hkey hmem)
      rw [show (Subtree.branch page children).page = page from rfl, auditPage,
        hstored]
      simp only [Except.mapError, bind, Except.bind, hsize, hkeys, hbelow,
        Bool.not_false, decide_true, Violation.unlessHolds_of]
      rw [hmap, ← census_branch page bounds children]
      rfl

theorem auditChain_of_linked {before : Option PageId} {ids : List PageId}
    (hlinked : tree.pages.Linked before ids none) :
    tree.auditChain before ids = .ok () := by
  induction ids generalizing before with
  | nil => rfl
  | cons id rest ih =>
      obtain ⟨hprev, hnext, hrest⟩ := hlinked
      rw [Option.or_none] at hnext
      simp only [auditChain, hprev, hnext, decide_true,
        Violation.unlessHolds_of, bind, Except.bind, ih hrest]

theorem Sound.audit_eq_ok {t : Subtree V} (hsound : tree.Sound t) :
    tree.audit = .ok () := by
  have hpage : tree.auditPage tree.height tree.root true .all =
      .ok t.census := by
    rw [hsound.root]
    exact auditPage_of_fits (fun id node hmem => hsound.stores.holds.page hmem)
      hsound.wellFormed.fits hsound.wellFormed.sized
  have hlive : t.census.pages = tree.stats.livePages :=
    hsound.stores.livePages.symm
  have hchain : tree.auditChain none t.census.leaves = .ok () :=
    auditChain_of_linked hsound.stores.chains.linked
  simp only [audit, hpage, hlive, decide_true, Violation.unlessHolds_of, bind,
    Except.bind, hchain]

end Tree

end LatchTree
