import Mathlib.Data.List.Perm.Subperm
import LatchTree.Proofs.Subtree.Basic
import LatchTree.Page.Table

/-!
# What a page table holds

A page table holds a list of cells if its pages in use are exactly these cells,
each with its node.  The list matters up to order only.  Each operation on a page
changes one cell of the list and leaves the others alone.  Over a change a table
evolves: pages keep their numbers and their kinds, and a page that was retired
does not change any more.
-/

namespace LatchTree

namespace PageTable

variable {V : Type} {table : PageTable V} {cells : List (Cell V)}

/-- The node of a page in use. -/
def liveNode? (table : PageTable V) (id : PageId) : Option (Node V) :=
  (table.page? id).bind fun page =>
    if page.retired then none else some page.node

/-- The cells are pages in use.  There may be others. -/
def Carries (table : PageTable V) (cells : List (Cell V)) : Prop :=
  ∀ id node, (id, node) ∈ cells → table.liveNode? id = some node

/-- The pages in use are the cells. -/
structure Holds (table : PageTable V) (cells : List (Cell V)) : Prop where
  nodup : (cells.map (·.1)).Nodup
  live_iff : ∀ id node, table.liveNode? id = some node ↔ (id, node) ∈ cells

/-- Pages keep their kinds, and retired pages do not change. -/
def Evolves (old new : PageTable V) : Prop :=
  ∀ id page, old.page? id = some page →
    ∃ later, new.page? id = some later ∧
      later.node.kind = page.node.kind ∧ (page.retired → later = page)

/-! ## Single pages -/

theorem page?_modify (table : PageTable V) (id : PageId) (f : Page V → Page V)
    (other : PageId) :
    (table.modify id f).page? other =
      if id = other then (table.page? other).map f else table.page? other :=
  Array.getElem?_modify

theorem page?_alloc (table : PageTable V) (node : Node V) (other : PageId) :
    (table.alloc node).page? other =
      if other = table.size then some { node } else table.page? other :=
  Array.getElem?_push

theorem page?_size (table : PageTable V) : table.page? table.size = none :=
  Array.getElem?_size

theorem lt_size_of_page? {id : PageId} {page : Page V}
    (hpage : table.page? id = some page) : id < table.size := by
  obtain ⟨hlt, _⟩ := Array.getElem?_eq_some_iff.mp hpage
  exact hlt

@[simp] theorem size_modify (table : PageTable V) (id : PageId)
    (f : Page V → Page V) :
    (table.modify id f).size = table.size :=
  Array.size_modify

@[simp] theorem size_alloc (table : PageTable V) (node : Node V) :
    (table.alloc node).size = table.size + 1 := by
  unfold alloc size
  exact Array.size_push _

theorem liveNode?_eq_some_iff {id : PageId} {node : Node V} :
    table.liveNode? id = some node ↔
      ∃ page, table.page? id = some page ∧ page.retired = false ∧
        page.node = node := by
  unfold liveNode?
  cases table.page? id with
  | none => simp
  | some page => cases hretired : page.retired <;> simp [hretired]

theorem liveNode?_modify_links (table : PageTable V) (id : PageId)
    (f : Page V → Page V) (hnode : ∀ page, (f page).node = page.node)
    (hretired : ∀ page, (f page).retired = page.retired) (other : PageId) :
    (table.modify id f).liveNode? other = table.liveNode? other := by
  unfold liveNode?
  rw [page?_modify]
  by_cases hid : id = other
  · rw [if_pos hid]
    cases table.page? other with
    | none => rfl
    | some page => simp [hnode, hretired]
  · rw [if_neg hid]

@[simp] theorem liveNode?_setPrev (table : PageTable V) (id : PageId)
    (prev : Option PageId) (other : PageId) :
    (table.setPrev id prev).liveNode? other = table.liveNode? other := by
  apply liveNode?_modify_links
  · exact fun _ => rfl
  · exact fun _ => rfl

@[simp] theorem liveNode?_setNext (table : PageTable V) (id : PageId)
    (next : Option PageId) (other : PageId) :
    (table.setNext id next).liveNode? other = table.liveNode? other := by
  apply liveNode?_modify_links
  · exact fun _ => rfl
  · exact fun _ => rfl

/-! ## Cells -/

namespace Carries

theorem mono (hcarries : table.Carries cells) {others : List (Cell V)}
    (hsub : others ⊆ cells) : table.Carries others :=
  fun id node hmem => hcarries id node (hsub hmem)

theorem page_eq (hcarries : table.Carries cells) {id : PageId} {node : Node V}
    (hmem : (id, node) ∈ cells) :
    ∃ page, table.page? id = some page ∧ page.retired = false ∧
      page.node = node :=
  liveNode?_eq_some_iff.mp (hcarries id node hmem)

theorem page (hcarries : table.Carries cells) {id : PageId} {node : Node V}
    (hmem : (id, node) ∈ cells) :
    ∃ page, table.page id = .ok page ∧ page.retired = false ∧
      page.node = node := by
  obtain ⟨page, hpage, hlive⟩ := hcarries.page_eq hmem
  exact ⟨page, by simp [PageTable.page, hpage], hlive⟩

theorem node (hcarries : table.Carries cells) {id : PageId} {node : Node V}
    (hmem : (id, node) ∈ cells) : table.node id = .ok node := by
  obtain ⟨page, hpage, _, rfl⟩ := hcarries.page hmem
  simp [PageTable.node, hpage, Except.map]

theorem leaf (hcarries : table.Carries cells) {id : PageId} {contents : Leaf V}
    (hmem : (id, .leaf contents) ∈ cells) : table.leaf id = .ok contents := by
  simp [PageTable.leaf, hcarries.node hmem, bind, Except.bind]

theorem lt_size (hcarries : table.Carries cells) {cell : Cell V}
    (hmem : cell ∈ cells) : cell.1 < table.size := by
  obtain ⟨id, node⟩ := cell
  obtain ⟨page, hpage, _⟩ := hcarries.page_eq hmem
  exact lt_size_of_page? hpage

theorem length_le_size (hcarries : table.Carries cells)
    (hnodup : (cells.map (·.1)).Nodup) : cells.length ≤ table.size := by
  have hsub : cells.map (·.1) ⊆ List.range table.size := by
    intro id hid
    obtain ⟨cell, hcell, rfl⟩ := List.mem_map.mp hid
    exact List.mem_range.mpr (hcarries.lt_size hcell)
  have hle := (hnodup.subperm hsub).length_le
  simpa using hle

end Carries

namespace Holds

theorem perm (hholds : table.Holds cells) {others : List (Cell V)}
    (hperm : cells.Perm others) : table.Holds others where
  nodup := (hperm.map (·.1)).nodup_iff.mp hholds.nodup
  live_iff id node := (hholds.live_iff id node).trans hperm.mem_iff

theorem of_liveNode? {other : PageTable V} (hholds : table.Holds cells)
    (hsame : ∀ id, other.liveNode? id = table.liveNode? id) :
    other.Holds cells where
  nodup := hholds.nodup
  live_iff id node := by rw [hsame, hholds.live_iff]

theorem carries (hholds : table.Holds cells) : table.Carries cells :=
  fun id node hmem => (hholds.live_iff id node).mpr hmem

theorem page_eq (hholds : table.Holds cells) {id : PageId} {node : Node V}
    (hmem : (id, node) ∈ cells) :
    ∃ page, table.page? id = some page ∧ page.retired = false ∧
      page.node = node :=
  hholds.carries.page_eq hmem

theorem mem_of_page? (hholds : table.Holds cells) {id : PageId} {page : Page V}
    (hpage : table.page? id = some page) (hlive : page.retired = false) :
    (id, page.node) ∈ cells :=
  (hholds.live_iff id page.node).mp
    (liveNode?_eq_some_iff.mpr ⟨page, hpage, hlive, rfl⟩)

theorem page (hholds : table.Holds cells) {id : PageId} {node : Node V}
    (hmem : (id, node) ∈ cells) :
    ∃ page, table.page id = .ok page ∧ page.retired = false ∧
      page.node = node :=
  hholds.carries.page hmem

theorem node (hholds : table.Holds cells) {id : PageId} {node : Node V}
    (hmem : (id, node) ∈ cells) : table.node id = .ok node :=
  hholds.carries.node hmem

theorem leaf (hholds : table.Holds cells) {id : PageId} {contents : Leaf V}
    (hmem : (id, .leaf contents) ∈ cells) : table.leaf id = .ok contents :=
  hholds.carries.leaf hmem

theorem branch (hholds : table.Holds cells) {id : PageId} {contents : Branch}
    (hmem : (id, .branch contents) ∈ cells) :
    table.branch id = .ok contents := by
  simp [PageTable.branch, hholds.node hmem, bind, Except.bind]

theorem lt_size (hholds : table.Holds cells) {cell : Cell V}
    (hmem : cell ∈ cells) : cell.1 < table.size :=
  hholds.carries.lt_size hmem

theorem alloc (hholds : table.Holds cells) (node : Node V) :
    (table.alloc node).Holds ((table.size, node) :: cells) where
  nodup := by
    refine List.nodup_cons.mpr ⟨?_, hholds.nodup⟩
    intro hmem
    obtain ⟨cell, hcell, hsize⟩ := List.mem_map.mp hmem
    exact absurd (hholds.lt_size hcell) (by simp [hsize])
  live_iff id other := by
    rw [List.mem_cons, ← hholds.live_iff, liveNode?, page?_alloc, liveNode?]
    by_cases hid : id = table.size
    · subst hid
      have hnone : table.page? table.size = none := table.page?_size
      simp only [if_pos, Option.bind_some, Bool.false_eq_true, if_false,
        Option.some.injEq, hnone, Option.bind_none, reduceCtorEq, or_false,
        Prod.mk.injEq, true_and]
      exact ⟨Eq.symm, Eq.symm⟩
    · simp [hid]

theorem ne_of_mem_tail {id : PageId} {node : Node V}
    (hholds : table.Holds ((id, node) :: cells)) {cell : Cell V}
    (hmem : cell ∈ cells) : cell.1 ≠ id := by
  intro hid
  have hnodup := hholds.nodup
  rw [List.map_cons, List.nodup_cons] at hnodup
  exact hnodup.1 (List.mem_map.mpr ⟨cell, hmem, hid⟩)

theorem setNode {id : PageId} {old : Node V}
    (hholds : table.Holds ((id, old) :: cells)) (new : Node V) :
    (table.setNode id new).Holds ((id, new) :: cells) where
  nodup := hholds.nodup
  live_iff other node := by
    obtain ⟨page, hpage, hlive, _⟩ := hholds.page_eq List.mem_cons_self
    have hother := hholds.live_iff other node
    rw [List.mem_cons] at hother ⊢
    rw [PageTable.setNode, liveNode?, page?_modify]
    by_cases hid : id = other
    · subst hid
      have hnot : (id, node) ∉ cells :=
        fun hmem => hholds.ne_of_mem_tail hmem rfl
      simp only [if_pos, hpage, Option.map_some, Option.bind_some, hlive,
        Bool.false_eq_true, if_false, Option.some.injEq, Prod.mk.injEq,
        true_and, hnot, or_false]
      exact ⟨Eq.symm, Eq.symm⟩
    · rw [if_neg hid, ← liveNode?, hother]
      simp [Ne.symm hid]

theorem markRetired {id : PageId} {old : Node V}
    (hholds : table.Holds ((id, old) :: cells)) :
    (table.markRetired id).Holds cells where
  nodup := (List.nodup_cons.mp hholds.nodup).2
  live_iff other node := by
    obtain ⟨page, hpage, _, _⟩ := hholds.page_eq List.mem_cons_self
    have hother := hholds.live_iff other node
    rw [List.mem_cons] at hother
    rw [PageTable.markRetired, liveNode?, page?_modify]
    by_cases hid : id = other
    · subst hid
      have hnot : (id, node) ∉ cells :=
        fun hmem => hholds.ne_of_mem_tail hmem rfl
      simp [hpage, hnot]
    · rw [if_neg hid, ← liveNode?, hother]
      simp [Ne.symm hid]

end Holds

/-! ## Evolution -/

namespace Evolves

theorem refl (table : PageTable V) : table.Evolves table :=
  fun _ page hpage => ⟨page, hpage, rfl, fun _ => rfl⟩

theorem trans {first second third : PageTable V}
    (hfirst : first.Evolves second) (hsecond : second.Evolves third) :
    first.Evolves third := by
  intro id page hpage
  obtain ⟨next, hnext, hkind, hkept⟩ := hfirst id page hpage
  obtain ⟨last, hlast, hkindLast, hkeptLast⟩ := hsecond id next hnext
  refine ⟨last, hlast, hkindLast.trans hkind, fun hretired => ?_⟩
  have hsame := hkept hretired
  rw [hkeptLast (by rw [hsame]; exact hretired), hsame]

theorem alloc (table : PageTable V) (node : Node V) :
    table.Evolves (table.alloc node) := by
  intro id page hpage
  refine ⟨page, ?_, rfl, fun _ => rfl⟩
  have hne : id ≠ table.size := Nat.ne_of_lt (lt_size_of_page? hpage)
  rw [page?_alloc, if_neg hne, hpage]

theorem modify {id : PageId} {f : Page V → Page V} {node : Node V}
    (hlive : table.liveNode? id = some node)
    (hkind : ∀ page : Page V, page.node = node →
      (f page).node.kind = node.kind) :
    table.Evolves (table.modify id f) := by
  intro other page hpage
  by_cases hid : id = other
  · subst hid
    obtain ⟨live, hliveEq, hretired, hnode⟩ := liveNode?_eq_some_iff.mp hlive
    rw [hpage, Option.some.injEq] at hliveEq
    subst hliveEq
    refine ⟨f page, ?_, ?_, ?_⟩
    · rw [page?_modify, if_pos rfl, hpage, Option.map_some]
    · rw [hkind page hnode, hnode]
    · simp [hretired]
  · exact ⟨page, by rw [page?_modify, if_neg hid, hpage], rfl, fun _ => rfl⟩

theorem setNode {id : PageId} {old new : Node V}
    (hlive : table.liveNode? id = some old) (hkind : new.kind = old.kind) :
    table.Evolves (table.setNode id new) :=
  modify hlive fun _ _ => hkind

theorem setPrev {id : PageId} (hlive : (table.liveNode? id).isSome)
    (prev : Option PageId) : table.Evolves (table.setPrev id prev) := by
  obtain ⟨node, hnode⟩ := Option.isSome_iff_exists.mp hlive
  exact modify hnode fun _ hpage => congrArg Node.kind hpage

theorem setNext {id : PageId} (hlive : (table.liveNode? id).isSome)
    (next : Option PageId) : table.Evolves (table.setNext id next) := by
  obtain ⟨node, hnode⟩ := Option.isSome_iff_exists.mp hlive
  exact modify hnode fun _ hpage => congrArg Node.kind hpage

theorem markRetired {id : PageId} {node : Node V}
    (hlive : table.liveNode? id = some node) :
    table.Evolves (table.markRetired id) :=
  modify hlive fun _ hnode => congrArg Node.kind hnode

end Evolves

end PageTable

end LatchTree
