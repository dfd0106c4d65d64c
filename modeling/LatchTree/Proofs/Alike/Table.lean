import LatchTree.Proofs.Alike.Node
import LatchTree.Proofs.Corresponding.Table

/-!
# Trees that differ in first keys

Two trees are alike if they differ in nothing but the keys that branches keep for
their first children.  They are the trees that correspond when every key is
mapped to itself.
-/

namespace LatchTree

variable {V : Type}

namespace Page

structure Alike (first second : Page V) : Prop where
  node : first.node.Alike second.node
  prev : first.prev = second.prev
  next : first.next = second.next
  retired : first.retired = second.retired

namespace Alike

theorem refl (page : Page V) : page.Alike page :=
  ⟨.refl page.node, rfl, rfl, rfl⟩

variable {first second : Page V}

theorem corresponds (halike : first.Alike second) :
    first.Corresponds .identity second :=
  ⟨halike.node.corresponds, halike.prev, halike.next, halike.retired⟩

theorem of_corresponds (hpage : first.Corresponds .identity second) :
    first.Alike second :=
  ⟨.of_corresponds hpage.node, hpage.prev, hpage.next, hpage.retired⟩

end Alike

end Page

namespace PageTable

/-- Each number belongs to alike pages, or to none in both tables. -/
def Alike (first second : PageTable V) : Prop :=
  ∀ id, Option.Rel Page.Alike (first.page? id) (second.page? id)

namespace Alike

variable {first second : PageTable V}

theorem page (halike : first.Alike second) (id : PageId) :
    Lockstep Page.Alike (first.page id) (second.page id) := by
  have hid := halike id
  unfold PageTable.page
  generalize first.page? id = left at hid ⊢
  generalize second.page? id = right at hid ⊢
  cases hid with
  | none => exact .error _
  | some hpage => exact .ok hpage

theorem corresponds (halike : first.Alike second) :
    first.Corresponds .identity second :=
  fun id => rel_imp (halike id) fun _ _ hpage => hpage.corresponds

theorem of_corresponds (hpages : first.Corresponds .identity second) :
    first.Alike second :=
  fun id => rel_imp (hpages id) fun _ _ => .of_corresponds

end Alike

end PageTable

namespace Tree

structure Alike (first second : Tree V) : Prop where
  config : first.config = second.config
  pages : first.pages.Alike second.pages
  root : first.root = second.root
  height : first.height = second.height
  stats : first.stats = second.stats

namespace Alike

variable {first second : Tree V}

theorem corresponds (halike : first.Alike second)
    (hvalid : first.config.Valid) : first.Corresponds .identity second where
  valid := hvalid
  config := halike.config
  pages := halike.pages.corresponds
  root := halike.root
  height := halike.height
  stats := halike.stats

theorem of_corresponds (htree : first.Corresponds .identity second) :
    first.Alike second where
  config := htree.config
  pages := .of_corresponds htree.pages
  root := htree.root
  height := htree.height
  stats := htree.stats

end Alike

/-- The tree with other keys for the first children of its branches, wherever
the choice has one. -/
def withFirstKeys (tree : Tree V) (choice : PageId → Option Key) : Tree V :=
  { tree with pages := ⟨tree.pages.pages.mapIdx fun id page =>
      match page.node, choice id with
      | .branch branch, some key =>
          { page with node := .branch ⟨branch.rekeyed key⟩ }
      | _, _ => page⟩ }

theorem page?_withFirstKeys (tree : Tree V) (choice : PageId → Option Key)
    (id : PageId) :
    (tree.withFirstKeys choice).pages.page? id =
      (tree.pages.page? id).map fun page =>
        match page.node, choice id with
        | .branch branch, some key =>
            { page with node := .branch ⟨branch.rekeyed key⟩ }
        | _, _ => page :=
  Array.getElem?_mapIdx

theorem alike_withFirstKeys (tree : Tree V) (choice : PageId → Option Key) :
    tree.Alike (tree.withFirstKeys choice) := by
  refine ⟨rfl, fun id => ?_, rfl, rfl, rfl⟩
  rw [page?_withFirstKeys]
  cases tree.pages.page? id with
  | none => exact .none
  | some page =>
      refine .some ?_
      obtain ⟨node, prev, next, retired⟩ := page
      cases node with
      | leaf contents => exact .refl _
      | branch contents =>
          cases choice id with
          | none => exact .refl _
          | some key =>
              obtain ⟨_ | ⟨⟨old, child⟩, rest⟩⟩ := contents
              · exact .refl _
              · exact ⟨.branch (.rekeyed old key child rest), rfl, rfl, rfl⟩

/-- The key that a branch keeps for its first child. -/
def firstKey? (tree : Tree V) (id : PageId) : Option Key :=
  match tree.pages.node id with
  | .ok (.branch branch) => branch.entries.head?.map (·.1)
  | _ => none

theorem Alike.eq_withFirstKeys {first second : Tree V}
    (halike : first.Alike second) :
    second = first.withFirstKeys second.firstKey? := by
  have hpages : second.pages.pages =
      (first.withFirstKeys second.firstKey?).pages.pages := by
    refine Array.ext_getElem? fun id => ?_
    have hid := halike.pages id
    change second.pages.page? id =
      (first.withFirstKeys second.firstKey?).pages.page? id
    rw [page?_withFirstKeys, firstKey?, PageTable.node, PageTable.page]
    generalize first.pages.page? id = left at hid ⊢
    generalize second.pages.page? id = right at hid ⊢
    cases hid with
    | none => rfl
    | @some left right hpage =>
        obtain ⟨leftNode, _, _, _⟩ := left
        obtain ⟨rightNode, _, _, _⟩ := right
        obtain ⟨hnode, hprev, hnext, hretired⟩ := hpage
        cases hprev
        cases hnext
        cases hretired
        cases hnode with
        | leaf contents => rfl
        | branch hbranch => cases hbranch <;> rfl
  obtain ⟨config, pages, root, height, stats⟩ := second
  cases halike.config
  cases halike.root
  cases halike.height
  cases halike.stats
  exact congrArg (fun pages => Tree.mk _ ⟨pages⟩ _ _ _) hpages

/-- Alike trees are obtained from each other by a choice of first keys. -/
theorem alike_iff {first second : Tree V} :
    first.Alike second ↔ ∃ choice, second = first.withFirstKeys choice := by
  constructor
  · exact fun halike => ⟨_, halike.eq_withFirstKeys⟩
  · rintro ⟨choice, rfl⟩
    exact first.alike_withFirstKeys choice

end Tree

end LatchTree
