import LatchTree.Tree.Subtree
import LatchTree.Proofs.Page.LeafChain
import LatchTree.Proofs.Runs
import LatchTree.Proofs.Subtree.Fits

/-!
# What a tree shows

Whoever reads a tree starts at the root pointer and follows the branches and the
links of the leaves.  A tree shows a subtree if the pages found in this way are
those of the subtree, and it is well-formed.  The page table may hold other pages
in use; no reader ever comes to them.
-/

namespace LatchTree

open Subtree

variable {V : Type}

namespace Tree

variable {tree : Tree V} {t : Subtree V}

/-- A subtree that fits is unfolded from the pages that carry it. -/
theorem subtreeFrom_eq {config : Config} {height : Nat} {bounds : Bounds}
    (hfits : t.Fits config height bounds)
    (hcarries : tree.pages.Carries t.cells) {fuel : Nat}
    (hfuel : height ≤ fuel) : tree.subtreeFrom fuel t.page = .ok t := by
  induction hfits generalizing fuel with
  | @leaf bounds page contents hleaf =>
      obtain ⟨fuel, rfl⟩ :=
        Nat.exists_eq_succ_of_ne_zero (Nat.ne_of_gt hfuel)
      have hnode : tree.pages.node page = .ok (.leaf contents) :=
        hcarries.node (by rw [cells_leaf]; exact List.mem_cons_self)
      rw [Subtree.page, subtreeFrom, hnode]
      rfl
  | @branch height bounds page children hne hsized hchildren ih =>
      obtain ⟨fuel, rfl⟩ := Nat.exists_eq_add_one_of_ne_zero (Nat.ne_of_gt
        (Nat.lt_of_lt_of_le (Nat.succ_pos height) hfuel))
      rw [cells_branch] at hcarries
      have hnode : tree.pages.node page = .ok (.branch ⟨slots children⟩) :=
        hcarries.node List.mem_cons_self
      have hbelow : ∀ e ∈ children, (do
          return (e.1, ← tree.subtreeFrom fuel e.2.page)) = Except.ok e := by
        intro e he
        obtain ⟨inner, hinner⟩ := exists_childBounds bounds he
        have hchild : tree.pages.Carries e.2.cells := hcarries.mono
          fun cell hcell => List.mem_cons_of_mem _ (mem_cellsOf he hcell)
        rw [ih _ hinner hchild (Nat.le_of_succ_le_succ hfuel)]
        rfl
      have hmap : (slots children).mapM (fun e => do
          return (e.1, ← tree.subtreeFrom fuel e.2)) = Except.ok children := by
        have hall := mapM_eq_ok hbelow
        rw [List.map_id'] at hall
        rw [slots, List.mapM_map]
        exact hall
      have hfilled : (slots children).isEmpty = false := by
        rw [List.isEmpty_eq_false_iff, ← List.length_pos_iff, length_slots]
        exact List.length_pos_iff.mpr hne
      rw [Subtree.page, subtreeFrom, hnode]
      simp only [bind, Except.bind, hfilled, Bool.false_eq_true, if_false]
        at hmap ⊢
      rw [hmap]
      rfl

/-- A reader finds the pages of a well-formed subtree under the root. -/
structure Shows (tree : Tree V) (t : Subtree V) : Prop where
  root : tree.root = t.page
  carries : tree.pages.Carries t.cells
  nodup : (t.cells.map (·.1)).Nodup
  linked : tree.pages.Linked none t.leafPages none
  wellFormed : t.WellFormed tree.config tree.height

namespace Shows

theorem cells_le_size (hshows : tree.Shows t) :
    t.cells.length ≤ tree.pages.size :=
  hshows.carries.length_le_size hshows.nodup

theorem height_le_size (hshows : tree.Shows t) :
    tree.height ≤ tree.pages.size :=
  Nat.le_trans hshows.wellFormed.fits.height_le_cells hshows.cells_le_size

theorem subtree_eq (hshows : tree.Shows t) : tree.subtree = .ok t := by
  rw [subtree, hshows.root]
  exact subtreeFrom_eq hshows.wellFormed.fits hshows.carries
    hshows.height_le_size

end Shows

end Tree

end LatchTree
