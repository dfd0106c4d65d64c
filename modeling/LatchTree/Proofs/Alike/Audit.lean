import LatchTree.Tree.Audit
import LatchTree.Proofs.Alike.Table

/-!
# The audit of alike trees

The audit asks for the separators of a branch and for nothing else among its
keys, so it comes to the same verdict on alike trees, whatever that is.
-/

namespace LatchTree

namespace Tree.Alike

variable {V : Type} {first second : Tree V}

theorem childBounds_eq {left right : Branch} (hbranch : left.Alike right)
    (bounds : Bounds) : left.childBounds bounds = right.childBounds bounds := by
  cases hbranch with
  | empty => rfl
  | rekeyed key other child rest => cases rest <;> rfl

theorem auditSize_eq (halike : first.Alike second) (page : PageId)
    {left right : Node V} (hnode : left.Alike right) (isRoot : Bool) :
    first.auditSize page left isRoot = second.auditSize page right isRoot := by
  unfold auditSize
  rw [halike.config, hnode.corresponds.kind_eq, hnode.corresponds.size_eq]

theorem auditPage_eq (halike : first.Alike second) (below : Nat) (id : PageId)
    (isRoot : Bool) (bounds : Bounds) :
    first.auditPage below id isRoot bounds =
      second.auditPage below id isRoot bounds := by
  induction below generalizing id isRoot bounds with
  | zero => rfl
  | succ below ih =>
      have hpage : Lockstep Page.Alike
          ((first.pages.page id).mapError Violation.damaged)
          ((second.pages.page id).mapError Violation.damaged) := by
        have hpage := halike.pages.page id
        generalize first.pages.page id = left at hpage ⊢
        generalize second.pages.page id = right at hpage ⊢
        cases hpage with
        | error fault => exact .error _
        | ok hpage => exact .ok hpage
      rw [auditPage, auditPage]
      refine (hpage.bind fun left right hpage => ?_).eq
      obtain ⟨leftNode, _, _, _⟩ := left
      obtain ⟨rightNode, _, _, _⟩ := right
      obtain ⟨hnode, _, _, hretired⟩ := hpage
      simp only at hnode hretired
      simp only [hretired, halike.auditSize_eq id hnode]
      cases hnode with
      | leaf contents => exact .refl Eq.refl _
      | branch hbranch =>
          simp only [hbranch.separators_eq, childBounds_eq hbranch, ih]
          exact .refl Eq.refl _

theorem auditChain_eq (halike : first.Alike second) (before : Option PageId)
    (leaves : List PageId) :
    first.auditChain before leaves = second.auditChain before leaves := by
  induction leaves generalizing before with
  | nil => rfl
  | cons leaf rest ih =>
      have hpages := halike.pages.corresponds
      rw [auditChain, auditChain, hpages.prev?_eq, hpages.next?_eq, ih]

theorem audit_eq (halike : first.Alike second) : first.audit = second.audit := by
  unfold audit
  simp only [halike.height, halike.root, halike.stats, halike.auditPage_eq,
    halike.auditChain_eq]

end Tree.Alike

end LatchTree
