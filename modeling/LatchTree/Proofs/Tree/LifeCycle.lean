import LatchTree.Proofs.Tree.Retirement

/-!
# The life of a page

A page is in use from its allocation until a call retires it.  While it is in
use, exactly one way leads to it from the root.  Once it is retired, no way leads
to it and no leaf in use is linked to it, and it stays as it is for good.
-/

namespace LatchTree

open Subtree

variable {V : Type}

namespace Tree

structure InUse (tree : Tree V) (id : PageId) (page : Page V) : Prop where
  live : page.retired = false
  reached : ∃! way, tree.pageAt? way = some id

structure OutOfUse (tree : Tree V) (id : PageId) (page : Page V) : Prop where
  retired : page.retired = true
  unreached : ∀ way, tree.pageAt? way ≠ some id
  unlinked : ∀ other neighbour, tree.pages.page? other = some neighbour →
    neighbour.retired = false → neighbour.node.kind = .leaf →
      neighbour.prev ≠ some id ∧ neighbour.next ≠ some id
  cleared : page.node.kind = .leaf → page.prev = none ∧ page.next = none

namespace Sound

variable {tree : Tree V} {t : Subtree V} {id : PageId} {page : Page V}

theorem mem_pages_of_leafPages (hsound : tree.Sound t)
    (hid : id ∈ t.leafPages) : id ∈ t.pages := by
  obtain ⟨contents, hcell⟩ := hsound.stores.leaves id hid
  exact mem_pages_of_cell hcell

/-- A leaf in use stands in the leaf chain. -/
theorem mem_leafPages (hsound : tree.Sound t)
    (hpage : tree.pages.page? id = some page) (hlive : page.retired = false)
    (hleaf : page.node.kind = .leaf) : id ∈ t.leafPages := by
  have hcell := hsound.stores.holds.mem_of_page? hpage hlive
  cases hnode : page.node with
  | leaf contents =>
      rw [hnode] at hcell
      obtain ⟨before, after, hleaves⟩ := exists_leaves_eq hcell
      have hmem : (id, contents) ∈ t.leaves := by
        rw [hleaves]
        exact List.mem_append_right _ List.mem_cons_self
      exact List.mem_map.mpr ⟨_, hmem, rfl⟩
  | branch contents =>
      rw [hnode] at hleaf
      cases hleaf

theorem inUse (hsound : tree.Sound t)
    (hpage : tree.pages.page? id = some page) (hlive : page.retired = false) :
    tree.InUse id page where
  live := hlive
  reached := hsound.existsUnique_way ((hsound.mem_pages_iff hpage).mpr hlive)

theorem outOfUse (hsound : tree.Sound t)
    (hpage : tree.pages.page? id = some page) (hretired : page.retired = true) :
    tree.OutOfUse id page := by
  have hnot : id ∉ t.pages := by
    intro hid
    rw [hsound.mem_pages_iff hpage, hretired] at hid
    cases hid
  have hapart : id ∉ t.leafPages := fun hid =>
    hnot (hsound.mem_pages_of_leafPages hid)
  refine ⟨hretired, ?_, ?_, ?_⟩
  · intro way hway
    exact hnot (hsound.mem_pages_of_pageAt? hway)
  · intro other neighbour hother hlive hleaf
    obtain ⟨before, after, hpages⟩ :=
      List.append_of_mem (hsound.mem_leafPages hother hlive hleaf)
    have hchain := hpages ▸ hsound.stores.chains
    have hprev := hchain.prev?_eq
    have hnext := hchain.next?_eq
    rw [PageTable.prev?, hother, Option.bind_some] at hprev
    rw [PageTable.next?, hother, Option.bind_some] at hnext
    rw [hpages] at hapart
    constructor
    · rw [hprev]
      exact fun hlast => hapart
        (List.mem_append_left _ (List.mem_of_getLast? hlast))
    · rw [hnext]
      exact fun hhead => hapart (List.mem_append_right _
        (List.mem_cons_of_mem _ (List.mem_of_mem_head? hhead)))
  · intro _
    obtain ⟨hprev, hnext⟩ := hsound.stores.chains.apart id hapart
    rw [PageTable.prev?, hpage, Option.bind_some] at hprev
    rw [PageTable.next?, hpage, Option.bind_some] at hnext
    exact ⟨hprev, hnext⟩

end Sound

/-- After any history of a new tree, each page ever allocated is in use and no
call has retired it, or it is out of use and exactly one call has retired it.  No
later change touches a page that is out of use or puts it back into use. -/
theorem page_life_cycle {config : Config} (hconfig : config.validate = .ok ())
    (changes : List (Change V)) :
    ∃ tree noted,
      (Tree.empty config).changeAll changes = .ok tree ∧
        (Tree.empty config).changeAllNoted changes = .ok (tree, noted) ∧
        (∀ id page, tree.pages.page? id = some page →
          tree.InUse id page ∧ noted.count id = 0 ∨
            tree.OutOfUse id page ∧ noted.count id = 1) ∧
        (∀ id ∈ noted, id < tree.pages.size) ∧
        ∀ later, ∃ next, tree.changeAll later = .ok next ∧
          ∀ id page, tree.pages.page? id = some page → page.retired = true →
            next.pages.page? id = some page ∧ next.OutOfUse id page := by
  have hvalid := Config.validate_eq_ok_iff.mp hconfig
  obtain ⟨tree, t, noted, hrun, hnoted, hsound, _, hcount⟩ :=
    (sound_empty hvalid).exists_changeAllNoted changes
  have hnone : ∀ id,
      (Tree.empty config : Tree V).pages.isRetired id = false := by
    intro id
    rw [Tree.empty, PageTable.isRetired_alloc]
    rfl
  have hmarks : ∀ id, noted.count id = (tree.pages.isRetired id).toNat := by
    intro id
    rw [← hcount id, hnone id]
    rfl
  refine ⟨tree, noted, hrun, hnoted, ?_, ?_, ?_⟩
  · intro id page hpage
    rw [hmarks, PageTable.isRetired_of_page? hpage]
    cases hretired : page.retired with
    | false => exact .inl ⟨hsound.inUse hpage hretired, rfl⟩
    | true => exact .inr ⟨hsound.outOfUse hpage hretired, rfl⟩
  · intro id hid
    have hpos := List.count_pos_iff.mpr hid
    rw [hmarks] at hpos
    have hmark : tree.pages.isRetired id = true := by
      by_contra hlive
      rw [Bool.not_eq_true] at hlive
      rw [hlive] at hpos
      exact Nat.lt_irrefl 0 hpos
    exact PageTable.lt_size_of_isRetired hmark
  · intro later
    obtain ⟨next, u, _, hlater, _, hnext, hevolves, _⟩ :=
      hsound.exists_changeAllNoted later
    refine ⟨next, hlater, ?_⟩
    intro id page hpage hretired
    obtain ⟨kept, hkept, _, hsame⟩ := hevolves id page hpage
    rw [hsame hretired] at hkept
    exact ⟨hkept, hnext.outOfUse hkept hretired⟩

/-- The second of two leaves is merged into the first, and their parent, which
was the root, goes too. -/
theorem page_life_cycle_over_merge :
    ({ degree := 3 } : Config).validate = .ok () ∧
      ∃ tree,
        (Tree.empty { degree := 3 }).changeAllNoted
            [.insert 1 'a', .insert 2 'b', .insert 3 'c', .insert 4 'd',
              .remove 1] = .ok (tree, [1, 2]) ∧
          (∃ page, tree.pages.page? 0 = some page ∧ tree.InUse 0 page) ∧
          (∃ page, tree.pages.page? 1 = some page ∧ tree.OutOfUse 1 page) ∧
          ∃ page, tree.pages.page? 2 = some page ∧ tree.OutOfUse 2 page := by
  have hconfig : ({ degree := 3 } : Config).validate = .ok () := rfl
  obtain ⟨tree, noted, _, hrun, hpages, hsize, _⟩ :=
    page_life_cycle hconfig [.insert 1 'a', .insert 2 'b', .insert 3 'c',
      .insert 4 'd', .remove 1]
  have hcalls : ((Tree.empty { degree := 3 }).changeAllNoted
      [.insert 1 'a', .insert 2 'b', .insert 3 'c', .insert 4 'd',
        .remove 1]).map (·.2) = .ok [1, 2] := by
    decide +kernel
  rw [hrun, Except.map, Except.ok.injEq] at hcalls
  subst hcalls
  have hused : ∀ id, id < tree.pages.size → [1, 2].count id = 0 →
      ∃ page, tree.pages.page? id = some page ∧ tree.InUse id page := by
    intro id hid hcount
    obtain ⟨page, hpage⟩ := PageTable.exists_page?_of_lt hid
    rcases hpages id page hpage with ⟨hinUse, _⟩ | ⟨_, honce⟩
    · exact ⟨page, hpage, hinUse⟩
    · omega
  have hretired : ∀ id ∈ [1, 2], [1, 2].count id = 1 →
      ∃ page, tree.pages.page? id = some page ∧ tree.OutOfUse id page := by
    intro id hid hcount
    obtain ⟨page, hpage⟩ := PageTable.exists_page?_of_lt (hsize id hid)
    rcases hpages id page hpage with ⟨_, hnever⟩ | ⟨houtOfUse, _⟩
    · omega
    · exact ⟨page, hpage, houtOfUse⟩
  have hfirst : 0 < tree.pages.size :=
    Nat.lt_trans Nat.one_pos (hsize 1 List.mem_cons_self)
  exact ⟨hconfig, tree, hrun, hused 0 hfirst rfl, hretired 1 (by decide) rfl,
    hretired 2 (by decide) rfl⟩

end Tree

end LatchTree
