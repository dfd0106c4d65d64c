import LatchTree.Tree.Basic
import LatchTree.Proofs.Corresponding.Node
import LatchTree.Proofs.Page.Table
import LatchTree.Proofs.Subtree.Fits

/-!
# Corresponding page tables

Two page tables correspond under a key map if the same numbers belong to pages,
with corresponding nodes and the same links.  The operations of the page table
keep it so.
-/

namespace LatchTree

variable {V : Type} {g : KeyMap}

structure Page.Corresponds (g : KeyMap) (first second : Page V) : Prop where
  node : first.node.Corresponds g second.node
  prev : first.prev = second.prev
  next : first.next = second.next
  retired : first.retired = second.retired

namespace PageTable

/-- Each number belongs to corresponding pages, or to none in both tables. -/
def Corresponds (g : KeyMap) (first second : PageTable V) : Prop :=
  ∀ id, Option.Rel (Page.Corresponds g) (first.page? id) (second.page? id)

namespace Corresponds

variable {first second : PageTable V}

theorem size_eq (hpages : first.Corresponds g second) :
    first.size = second.size := by
  refine eq_of_forall_lt_iff fun id => ?_
  have hlt : ∀ table : PageTable V,
      id < table.size ↔ (table.page? id).isSome := by
    intro table
    simp [page?, size]
  rw [hlt, hlt, isSome_eq_of_rel (hpages id)]

/-! ## Reading -/

theorem page (hpages : first.Corresponds g second) (id : PageId) :
    Follows (Page.Corresponds g) (first.page id) (second.page id) := by
  have hid := hpages id
  unfold PageTable.page
  generalize first.page? id = left at hid ⊢
  generalize second.page? id = right at hid ⊢
  cases hid with
  | none => exact .error _ _
  | some hpage => exact .ok hpage

theorem node (hpages : first.Corresponds g second) (id : PageId) :
    Follows (Node.Corresponds g) (first.node id) (second.node id) := by
  have hpage := hpages.page id
  unfold PageTable.node
  generalize first.page id = left at hpage ⊢
  generalize second.page id = right at hpage ⊢
  cases hpage with
  | error fault => exact .error _ _
  | ok hpage => exact .ok hpage.node

theorem leaf (hpages : first.Corresponds g second) (id : PageId) :
    Follows (Leaf.Corresponds g) (first.leaf id) (second.leaf id) := by
  unfold PageTable.leaf
  refine (hpages.node id).bind fun left right hnode => ?_
  cases hnode with
  | leaf hleaf => exact .ok hleaf
  | branch hbranch => exact .error _ _

theorem branch (hpages : first.Corresponds g second) (id : PageId) :
    Follows (Branch.Corresponds g) (first.branch id) (second.branch id) := by
  unfold PageTable.branch
  refine (hpages.node id).bind fun left right hnode => ?_
  cases hnode with
  | leaf hleaf => exact .error _ _
  | branch hbranch => exact .ok hbranch

theorem next?_eq (hpages : first.Corresponds g second) (id : PageId) :
    first.next? id = second.next? id :=
  bind_eq_of_rel (hpages id) fun _ _ hpage => hpage.next

theorem prev?_eq (hpages : first.Corresponds g second) (id : PageId) :
    first.prev? id = second.prev? id :=
  bind_eq_of_rel (hpages id) fun _ _ hpage => hpage.prev

/-! ## Writing -/

theorem alloc (hpages : first.Corresponds g second) {left right : Node V}
    (hnode : left.Corresponds g right) :
    (first.alloc left).Corresponds g (second.alloc right) := by
  intro id
  rw [page?_alloc, page?_alloc, hpages.size_eq]
  split
  · exact .some ⟨hnode, rfl, rfl, rfl⟩
  · exact hpages id

theorem modify (hpages : first.Corresponds g second) (id : PageId)
    {f h : Page V → Page V}
    (hmodify : ∀ left right, left.Corresponds g right →
      (f left).Corresponds g (h right)) :
    (first.modify id f).Corresponds g (second.modify id h) := by
  intro other
  have hother := hpages other
  rw [page?_modify, page?_modify]
  generalize first.page? other = left at hother ⊢
  generalize second.page? other = right at hother ⊢
  split
  · cases hother with
    | none => exact .none
    | some hpage => exact .some (hmodify _ _ hpage)
  · exact hother

theorem setNode (hpages : first.Corresponds g second) (id : PageId)
    {left right : Node V} (hnode : left.Corresponds g right) :
    (first.setNode id left).Corresponds g (second.setNode id right) :=
  hpages.modify id fun _ _ hpage =>
    ⟨hnode, hpage.prev, hpage.next, hpage.retired⟩

theorem setPrev (hpages : first.Corresponds g second) (id : PageId)
    (prev : Option PageId) :
    (first.setPrev id prev).Corresponds g (second.setPrev id prev) :=
  hpages.modify id fun _ _ hpage => ⟨hpage.node, rfl, hpage.next, hpage.retired⟩

theorem setNext (hpages : first.Corresponds g second) (id : PageId)
    (next : Option PageId) :
    (first.setNext id next).Corresponds g (second.setNext id next) :=
  hpages.modify id fun _ _ hpage => ⟨hpage.node, hpage.prev, rfl, hpage.retired⟩

theorem markRetired (hpages : first.Corresponds g second) (id : PageId) :
    (first.markRetired id).Corresponds g (second.markRetired id) :=
  hpages.modify id fun _ _ hpage => ⟨hpage.node, hpage.prev, hpage.next, rfl⟩

theorem linkAfter (hpages : first.Corresponds g second) (left right : PageId) :
    (first.linkAfter left right).Corresponds g
      (second.linkAfter left right) := by
  unfold PageTable.linkAfter
  rw [hpages.next?_eq]
  have hright := (hpages.setPrev right (some left)).setNext right
    (second.next? left)
  cases hnext : second.next? left with
  | none =>
      rw [hnext] at hright
      exact setNext hright left (some right)
  | some next =>
      rw [hnext] at hright
      exact setNext (setPrev hright next (some right)) left (some right)

theorem unlink (hpages : first.Corresponds g second) (id : PageId) :
    (first.unlink id).Corresponds g (second.unlink id) := by
  unfold PageTable.unlink
  rw [hpages.prev?_eq, hpages.next?_eq]
  cases second.prev? id with
  | none =>
      cases second.next? id with
      | none => exact setNext (setPrev hpages id none) id none
      | some next =>
          exact setNext (setPrev (setPrev hpages next none) id none) id none
  | some prev =>
      cases second.next? id with
      | none =>
          have hprev := setNext hpages prev none
          exact setNext (setPrev hprev id none) id none
      | some next =>
          have hprev := setNext hpages prev (some next)
          exact setNext (setPrev (setPrev hprev next _) id none) id none

end Corresponds

end PageTable

namespace Tree

structure Corresponds (g : KeyMap) (first second : Tree V) : Prop where
  valid : first.config.Valid
  config : first.config = second.config
  pages : first.pages.Corresponds g second.pages
  root : first.root = second.root
  height : first.height = second.height
  stats : first.stats = second.stats

theorem corresponds_empty (g : KeyMap) {config : Config}
    (hvalid : config.Valid) :
    (empty config : Tree V).Corresponds g (empty config) where
  valid := hvalid
  config := rfl
  pages := by
    have hnone : PageTable.Corresponds g ({} : PageTable V) {} := by
      intro id
      exact .none
    exact hnone.alloc (.leaf .empty)
  root := rfl
  height := rfl
  stats := rfl

end Tree

end LatchTree
