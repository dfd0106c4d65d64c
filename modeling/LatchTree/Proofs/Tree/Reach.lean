import Mathlib.Logic.ExistsUnique
import LatchTree.Proofs.Tree.Descent

/-!
# Ways down from the root

A way down is a list of slots, one for each branch on it.  It leads from the
root pointer to a page, or to none if a slot is empty or a leaf is in the
way.  In a sound tree exactly one way leads to each page in use, and none to any
other page.
-/

namespace LatchTree

open Subtree

variable {V : Type}

/-- The page to which a way leads from a page. -/
def PageTable.follow (table : PageTable V) : PageId → List Nat → Option PageId
  | id, [] => some id
  | id, slot :: rest => do
      let contents ← (table.branch id).toOption
      let (_, child) ← contents.entries[slot]?
      table.follow child rest

/-- The page to which a way leads from the root pointer. -/
def Tree.pageAt? (tree : Tree V) (way : List Nat) : Option PageId :=
  tree.pages.follow tree.root way

/-! ## Ways in subtrees -/

namespace Subtree

def pages (t : Subtree V) : List PageId :=
  t.cells.map (·.1)

def at? : Subtree V → List Nat → Option (Subtree V)
  | t, [] => some t
  | .leaf _ _, _ :: _ => none
  | .branch _ children, slot :: rest =>
      children[slot]?.bind fun e => e.2.at? rest

theorem page_mem_pages (t : Subtree V) : t.page ∈ t.pages := by
  rw [pages, cells_eq]
  exact List.mem_cons_self

theorem pages_branch (page : PageId) (children : List (Key × Subtree V)) :
    (Subtree.branch page children).pages =
      page :: (cellsOf children).map (·.1) := by
  rw [pages, cells_branch, List.map_cons]

theorem mem_pages_of_cell {t : Subtree V} {cell : Cell V}
    (hcell : cell ∈ t.cells) : cell.1 ∈ t.pages :=
  List.mem_map_of_mem hcell

theorem child_cells_subset {children : List (Key × Subtree V)} {slot : Nat}
    {e : Key × Subtree V} (hslot : children[slot]? = some e) :
    e.2.cells ⊆ cellsOf children :=
  fun _ hcell => mem_cellsOf (List.mem_of_getElem? hslot) hcell

theorem cells_subset_of_at? {t s : Subtree V} {way : List Nat}
    (hway : t.at? way = some s) : s.cells ⊆ t.cells := by
  induction way generalizing t with
  | nil =>
      cases hway
      exact List.Subset.refl _
  | cons slot rest ih =>
      cases t with
      | leaf page contents => cases hway
      | branch page children =>
          obtain ⟨e, hslot, hrest⟩ := Option.bind_eq_some_iff.mp hway
          rw [cells_branch]
          exact fun cell hcell => List.mem_cons_of_mem _
            (child_cells_subset hslot (ih hrest hcell))

/-- Some way leads to each page of a subtree. -/
theorem exists_at? {config : Config} {height : Nat} {bounds : Bounds}
    {t : Subtree V} (hfits : t.Fits config height bounds) {id : PageId}
    (hid : id ∈ t.pages) : ∃ way s, t.at? way = some s ∧ s.page = id := by
  induction hfits with
  | @leaf bounds page contents hleaf =>
      rw [pages, cells_leaf, List.map_singleton, List.mem_singleton] at hid
      exact ⟨[], _, rfl, hid.symm⟩
  | @branch height bounds page children hne hsized hchildren ih =>
      rw [pages_branch, List.mem_cons] at hid
      rcases hid with rfl | hid
      · exact ⟨[], _, rfl, rfl⟩
      · obtain ⟨cell, hcell, rfl⟩ := List.mem_map.mp hid
        obtain ⟨e, he, hmem⟩ := exists_mem_of_cellsOf hcell
        obtain ⟨inner, hinner⟩ := exists_childBounds bounds he
        obtain ⟨way, s, hway, hpage⟩ := ih _ hinner (mem_pages_of_cell hmem)
        obtain ⟨slot, hslot⟩ := List.mem_iff_getElem?.mp he
        refine ⟨slot :: way, s, ?_, hpage⟩
        rw [at?, hslot]
        exact hway

/-- A page stands below one child only. -/
theorem slot_unique {children : List (Key × Subtree V)} {i j : Nat}
    {e d : Key × Subtree V} {id : PageId}
    (hnodup : ((cellsOf children).map (·.1)).Nodup)
    (hi : children[i]? = some e) (hj : children[j]? = some d)
    (he : id ∈ e.2.pages) (hd : id ∈ d.2.pages) : i = j := by
  induction children generalizing i j with
  | nil => cases hi
  | cons first rest ih =>
      rw [cellsOf_cons, List.map_append] at hnodup
      obtain ⟨_, hrest, hapart⟩ := List.nodup_append.mp hnodup
      have hbelow : ∀ {slot : Nat} {c : Key × Subtree V},
          rest[slot]? = some c → id ∈ c.2.pages →
            id ∈ (cellsOf rest).map (·.1) := fun hslot hmem =>
        List.map_subset _ (child_cells_subset hslot) hmem
      cases i with
      | zero =>
          cases hi
          cases j with
          | zero => rfl
          | succ j =>
              have hdBelow := hbelow hj hd
              exact absurd rfl (hapart id he id hdBelow)
      | succ i =>
          have heBelow := hbelow hi he
          cases j with
          | zero =>
              cases hj
              exact absurd rfl (hapart id hd id heBelow)
          | succ j => rw [ih hrest hi hj]

theorem nodup_pages_of_child {children : List (Key × Subtree V)} {slot : Nat}
    {e : Key × Subtree V} (hnodup : ((cellsOf children).map (·.1)).Nodup)
    (hslot : children[slot]? = some e) : e.2.pages.Nodup := by
  obtain ⟨left, right, rfl⟩ :=
    List.append_of_mem (List.mem_of_getElem? hslot)
  rw [cellsOf_append, cellsOf_cons, List.map_append, List.map_append] at hnodup
  exact (List.nodup_append.mp (List.nodup_append.mp hnodup).2.1).1

theorem page_ne_of_at? {t s : Subtree V} {slot : Nat} {rest : List Nat}
    (hnodup : t.pages.Nodup) (hway : t.at? (slot :: rest) = some s) :
    t.page ≠ s.page := by
  cases t with
  | leaf page contents => cases hway
  | branch page children =>
      obtain ⟨e, hslot, hrest⟩ := Option.bind_eq_some_iff.mp hway
      rw [pages_branch, List.nodup_cons] at hnodup
      have hbelow : s.cells ⊆ cellsOf children := fun cell hcell =>
        child_cells_subset hslot (cells_subset_of_at? hrest hcell)
      have hmem : s.page ∈ (cellsOf children).map (·.1) :=
        List.map_subset _ hbelow s.page_mem_pages
      intro hpage
      rw [← hpage] at hmem
      exact hnodup.1 hmem

/-- Two ways to one page are the same. -/
theorem at?_injective {t s u : Subtree V} {way other : List Nat}
    (hnodup : t.pages.Nodup) (hway : t.at? way = some s)
    (hother : t.at? other = some u) (hpage : s.page = u.page) :
    way = other := by
  induction way generalizing t other with
  | nil =>
      cases hway
      cases other with
      | nil => rfl
      | cons slot rest => exact absurd hpage (page_ne_of_at? hnodup hother)
  | cons slot rest ih =>
      cases other with
      | nil =>
          cases hother
          exact absurd hpage.symm (page_ne_of_at? hnodup hway)
      | cons otherSlot otherRest =>
          cases t with
          | leaf page contents => cases hway
          | branch page children =>
              obtain ⟨e, hslot, hrest⟩ := Option.bind_eq_some_iff.mp hway
              obtain ⟨d, hotherSlot, hotherRest⟩ :=
                Option.bind_eq_some_iff.mp hother
              have hbelow := hnodup
              rw [pages_branch, List.nodup_cons] at hbelow
              have he : s.page ∈ e.2.pages :=
                List.map_subset _ (cells_subset_of_at? hrest) s.page_mem_pages
              have hd : u.page ∈ d.2.pages :=
                List.map_subset _ (cells_subset_of_at? hotherRest)
                  u.page_mem_pages
              have hsame : slot = otherSlot :=
                slot_unique hbelow.2 hslot hotherSlot he (hpage ▸ hd)
              subst hsame
              rw [hslot, Option.some.injEq] at hotherSlot
              subst hotherSlot
              have hchild := nodup_pages_of_child hbelow.2 hslot
              rw [ih hchild hrest hotherRest]

end Subtree

/-! ## Ways in trees -/

/-- The page table is followed as the subtree is that it holds. -/
theorem PageTable.Holds.follow_eq {table : PageTable V} {cells : List (Cell V)}
    (hholds : table.Holds cells) {t : Subtree V} (hcells : t.cells ⊆ cells)
    (way : List Nat) :
    table.follow t.page way = (t.at? way).map Subtree.page := by
  induction way generalizing t with
  | nil => rfl
  | cons slot rest ih =>
      cases t with
      | leaf page contents =>
          have hnode : table.node page = .ok (.leaf contents) :=
            hholds.node (hcells (by rw [cells_leaf]; exact List.mem_cons_self))
          simp [follow, at?, Subtree.page, PageTable.branch, hnode, bind,
            Except.bind, Except.toOption]
      | branch page children =>
          rw [cells_branch] at hcells
          have hbranch : table.branch page = .ok ⟨slots children⟩ :=
            hholds.branch (hcells List.mem_cons_self)
          rw [follow, at?]
          simp only [Subtree.page, hbranch, Except.toOption, bind,
            Option.bind_some, slots, List.getElem?_map]
          cases hslot : children[slot]? with
          | none => rfl
          | some e =>
              have hchild : e.2.cells ⊆ cells := fun cell hcell =>
                hcells (List.mem_cons_of_mem _ (child_cells_subset hslot hcell))
              exact ih hchild

namespace Tree.Sound

variable {tree : Tree V} {t : Subtree V} {id : PageId}

theorem pageAt?_eq (hsound : tree.Sound t) (way : List Nat) :
    tree.pageAt? way = (t.at? way).map Subtree.page := by
  rw [pageAt?, hsound.root]
  exact hsound.stores.holds.follow_eq (List.Subset.refl _) way

theorem mem_pages_of_pageAt? (hsound : tree.Sound t) {way : List Nat}
    (hway : tree.pageAt? way = some id) : id ∈ t.pages := by
  rw [hsound.pageAt?_eq, Option.map_eq_some_iff] at hway
  obtain ⟨s, hs, rfl⟩ := hway
  exact List.map_subset _ (cells_subset_of_at? hs) s.page_mem_pages

theorem existsUnique_way (hsound : tree.Sound t) (hid : id ∈ t.pages) :
    ∃! way, tree.pageAt? way = some id := by
  obtain ⟨way, s, hway, hpage⟩ := exists_at? hsound.wellFormed.fits hid
  have hreached : tree.pageAt? way = some id := by
    rw [hsound.pageAt?_eq, hway, Option.map_some, hpage]
  refine ⟨way, hreached, ?_⟩
  intro other hother
  have hfound := (hsound.pageAt?_eq other).symm.trans hother
  obtain ⟨u, hu, hotherPage⟩ := Option.map_eq_some_iff.mp hfound
  exact at?_injective hsound.stores.holds.nodup hu hway
    (hotherPage.trans hpage.symm)

/-- The pages in use are those of the subtree. -/
theorem mem_pages_iff (hsound : tree.Sound t) {page : Page V}
    (hpage : tree.pages.page? id = some page) :
    id ∈ t.pages ↔ page.retired = false := by
  constructor
  · intro hid
    obtain ⟨cell, hcell, rfl⟩ := List.mem_map.mp hid
    obtain ⟨found, hfound, hlive, _⟩ := hsound.stores.holds.page_eq hcell
    rw [hpage, Option.some.injEq] at hfound
    exact hfound ▸ hlive
  · intro hlive
    exact mem_pages_of_cell (hsound.stores.holds.mem_of_page? hpage hlive)

end Tree.Sound

end LatchTree
